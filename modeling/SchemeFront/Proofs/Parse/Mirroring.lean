import SchemeFront.Proofs.Parse.Findings
import SchemeFront.Proofs.Sameness

set_option autoImplicit false

/-! # Two runs side by side

A parser is run on two lists of tokens that say the same but stand elsewhere, in two contexts. The
second run is on tokens in order, and so it gives no fault; the first one mirrors it
(`Reply.Mirrors`): it comes to the same value with the same findings, up to spans, and passes as
many tokens.

What the two runs have to agree on is which forms are nested too deeply. A `Parse.Pairing` tells
in which pairs of places they do, and it is enough to show this for single tokens and forms.
-/

namespace SchemeFront

open Token

variable {α β : Type} {ctx ctx' : Context} {pos pos' q q' r r' : Position}
  {C D H T : Position → Position → Prop} {V V' : α → α → Prop} {W : β → β → Prop} {n : Nat}
  {t t' : Token} {ts ts' us us' : List Token}

/-! ## Pairs of positions -/

/-- The same tokens are left in both places. Each form of those on the left has a span, and those
on the right are in order. -/
structure Position.Twin (pos pos' : Position) : Prop where
  bare_eq : pos.rest.map Token.bare = pos'.rest.map Token.bare
  spanned : Spanned pos.rest
  ascending : Ascending pos'.rest
  outside : pos.forms = [] ↔ pos'.forms = []

/-- As many tokens are left in both places. -/
def Position.Level (pos pos' : Position) : Prop := pos.rest.length = pos'.rest.length

/-- From `pos` and `pos'` one has come to `q` and `q'`, where `C` holds. -/
structure Position.Moves (C : Position → Position → Prop) (pos pos' q q' : Position) : Prop where
  left : ∃ rest, rest <:+ pos.rest ∧ q = pos.moveTo rest
  right : ∃ rest, rest <:+ pos'.rest ∧ q' = pos'.moveTo rest
  holds : C q q'

theorem eq_of_suffix {us vs : List Token} (hu : us <:+ ts) (hv : vs <:+ ts)
    (h : us.length = vs.length) : us = vs :=
  (List.suffix_of_suffix_length_le hu hv (Nat.le_of_eq h)).eq_of_length h

namespace Position

theorem Twin.level (h : Twin pos pos') : Level pos pos' := by
  simpa [Level] using congrArg List.length h.bare_eq

theorem Twin.next (h : Twin pos pos') (i : Nat) :
    pos.rest[i]?.map Token.bare = pos'.rest[i]?.map Token.bare := by
  rw [← List.getElem?_map, h.bare_eq, List.getElem?_map]

/-- What can be told of a token that is not where it stands is the same of the next ones. -/
theorem Twin.any_next (h : Twin pos pos') (i : Nat) {f : Token → Bool}
    (hf : ∀ t u : Token, t.bare = u.bare → f t = f u) :
    pos.rest[i]?.any f = pos'.rest[i]?.any f := by
  have hnext := h.next i
  cases ht : pos.rest[i]? with
  | none =>
      rw [ht, Option.map_none, eq_comm, Option.map_eq_none_iff] at hnext
      rw [hnext]
  | some t =>
      rw [ht, Option.map_some, eq_comm] at hnext
      obtain ⟨u, hu, htu⟩ := Option.map_eq_some_iff.1 hnext
      rw [hu]
      exact hf t u htu.symm

theorem Twin.eq_nil (h : Twin pos pos') (hrest : pos.rest = []) : pos'.rest = [] := by
  have hbare := h.bare_eq
  rwa [hrest, List.map_nil, eq_comm, List.map_eq_nil_iff] at hbare

theorem Twin.exists_cons (h : Twin pos pos') (hrest : pos.rest = t :: ts) :
    ∃ t' ts', pos'.rest = t' :: ts' ∧ t.bare = t'.bare := by
  have hbare := h.bare_eq
  rw [hrest] at hbare
  obtain ⟨t', ts', hrest', ht, -⟩ := List.map_eq_cons_iff.1 hbare.symm
  exact ⟨t', ts', hrest', ht.symm⟩

theorem Twin.bare_head (h : Twin pos pos') (hrest : pos.rest = t :: ts)
    (hrest' : pos'.rest = t' :: ts') : t.bare = t'.bare := by
  have hbare := h.bare_eq
  rw [hrest, hrest'] at hbare
  exact (List.cons.inj hbare).1

theorem Twin.extent_eq (h : Twin pos pos') : extent pos.rest = extent pos'.rest :=
  extent_eq_of_bare h.bare_eq

/-- Further on the same tokens are left if as many are. -/
theorem Twin.moveTo {rest rest' : List Token} (h : Twin pos pos') (hs : rest <:+ pos.rest)
    (hs' : rest' <:+ pos'.rest) (hlen : rest.length = rest'.length) :
    Twin (pos.moveTo rest) (pos'.moveTo rest') where
  bare_eq := by
    have hlevel := h.level
    obtain ⟨xs, hxs⟩ := hs
    obtain ⟨xs', hxs'⟩ := hs'
    have hbare := h.bare_eq
    rw [← hxs, ← hxs', List.map_append, List.map_append] at hbare
    exact List.append_inj_right' hbare (by simpa using hlen)
  spanned := h.spanned.of_suffix hs
  ascending := h.ascending.of_suffix hs'
  outside := h.outside

theorem Twin.tail (h : Twin pos pos') (hrest : pos.rest = t :: ts)
    (hrest' : pos'.rest = t' :: ts') : Twin (pos.moveTo ts) (pos'.moveTo ts') := by
  have hlevel := h.level
  refine h.moveTo (hrest ▸ List.suffix_cons t ts) (hrest' ▸ List.suffix_cons t' ts') ?_
  rw [Level, hrest, hrest'] at hlevel
  simpa using hlevel

theorem Twin.drop_extent (h : Twin pos pos') :
    Twin (pos.moveTo (pos.rest.drop (extent pos.rest)))
      (pos'.moveTo (pos'.rest.drop (extent pos'.rest))) := by
  have hlevel := h.level
  refine h.moveTo (List.drop_suffix _ _) (List.drop_suffix _ _) ?_
  rw [Level] at hlevel
  rw [List.length_drop, List.length_drop, h.extent_eq, hlevel]

/-- Inside a form. -/
theorem Twin.enter (h : Twin pos pos') (hrest : pos.rest = t :: ts)
    (hrest' : pos'.rest = t' :: ts') (counted counted' : Bool) :
    Twin (pos.enter counted ts) (pos'.enter counted' ts') where
  bare_eq := (h.tail hrest hrest').bare_eq
  spanned := (h.tail hrest hrest').spanned
  ascending := (h.tail hrest hrest').ascending
  outside := ⟨fun h => absurd h (List.cons_ne_nil _ _), fun h => absurd h (List.cons_ne_nil _ _)⟩

theorem Twin.supply (h : Twin pos pos') (hn : pos'.rest.length < n) :
    Supply (fun _ => True) n pos'.rest := ⟨hn, h.ascending, fun _ _ => trivial⟩

theorem Moves.refl (h : C pos pos') : Moves C pos pos' pos pos' :=
  ⟨⟨pos.rest, List.suffix_refl _, rfl⟩, ⟨pos'.rest, List.suffix_refl _, rfl⟩, h⟩

theorem Moves.trans (h : Moves C pos pos' q q') (h' : Moves D q q' r r') :
    Moves D pos pos' r r' := by
  obtain ⟨⟨rest, hs, rfl⟩, ⟨rest', hs', rfl⟩, -⟩ := h
  obtain ⟨⟨us, hus, rfl⟩, ⟨us', hus', rfl⟩, hD⟩ := h'
  exact ⟨⟨us, hus.trans hs, rfl⟩, ⟨us', hus'.trans hs', rfl⟩, hD⟩

theorem Moves.mono (h : Moves C pos pos' q q') (hCD : C q q' → D q q') :
    Moves D pos pos' q q' := ⟨h.left, h.right, hCD h.holds⟩

/-- Where one is then, fewer tokens are left, or as many. -/
theorem Moves.length_lt (h : Moves C pos pos' q q') (hn : pos'.rest.length < n) :
    q'.rest.length < n := by
  obtain ⟨rest, hs, rfl⟩ := h.right
  exact Nat.lt_of_le_of_lt hs.length_le hn

theorem Moves.twin (h : Moves Level pos pos' q q') (htwin : Twin pos pos') : Twin q q' := by
  obtain ⟨⟨rest, hs, rfl⟩, ⟨rest', hs', rfl⟩, hlevel⟩ := h
  exact htwin.moveTo hs hs' hlevel

/-- One run has passed the first form if the other one has. -/
theorem Twin.rest_eq_drop_extent (h : Twin pos pos') (hs : q.rest <:+ pos.rest)
    (hlevel : q.Level q') (hq' : q'.rest = pos'.rest.drop (extent pos'.rest)) :
    q.rest = pos.rest.drop (extent pos.rest) := by
  have hdrop := h.drop_extent.level
  rw [Level, moveTo_rest, moveTo_rest, ← hq'] at hdrop
  exact eq_of_suffix hs (List.drop_suffix _ _) (hlevel.trans hdrop.symm)

end Position

/-! ## Answers -/

/-- The same findings were made. -/
def Trace.Same (s t : Trace) : Prop := s.notes.map Diagnostic.bare = t.notes.map Diagnostic.bare

theorem Trace.Same.append {s s' u u' : Trace} (h : s.Same s') (h' : u.Same u') :
    (s ++ u).Same (s' ++ u') := by
  rw [Same, notes_append, notes_append, List.map_append, List.map_append, h, h']

/-- The first answer mirrors the second one: the values have the relation `V`, the findings are the
same, and one has come to places with the relation `C`. -/
def Reply.Mirrors (C : Position → Position → Prop) (pos pos' : Position) (V : α → α → Prop) :
    Reply α → Reply α → Prop
  | done a trace after, done a' trace' after' =>
      V a a' ∧ trace.Same trace' ∧ pos.Moves C pos' after after'
  | failed why trace after, failed why' trace' after' =>
      why.bare = why'.bare ∧ trace.Same trace' ∧ pos.Moves Position.Level pos' after after'
  | _, fault _ _ _ => True
  | _, _ => False

namespace Reply.Mirrors

variable {a b : Reply α}

theorem fault (a : Reply α) (f : Fault) (trace : Trace) (after : Position) :
    a.Mirrors C pos pos' V (.fault f trace after) := by
  cases a <;> trivial

theorem mono (h : a.Mirrors C pos pos' V b)
    (hCD : ∀ q q', pos.Moves C pos' q q' → C q q' → D q q') (hV : ∀ a b, V a b → V' a b) :
    a.Mirrors D pos pos' V' b := by
  cases b with
  | fault f trace' after' => exact fault _ f _ _
  | done b trace' after' =>
      cases a with
      | done a trace after =>
          obtain ⟨hab, htrace, hmoves⟩ := h
          exact ⟨hV a b hab, htrace, hmoves.mono (hCD _ _ hmoves)⟩
      | failed why trace after => exact h
      | fault fault => exact h
  | failed why' trace' after' =>
      cases a with
      | done a trace after => exact h
      | failed why trace after => exact h
      | fault fault => exact h

/-- Reading on from where the runs have come to. -/
theorem behind {trace trace' : Trace} (h : a.Mirrors D q q' V b)
    (htrace : trace.Same trace') (hmoves : pos.Moves C pos' q q') :
    (a.behind trace).Mirrors D pos pos' V (b.behind trace') := by
  cases b with
  | fault f more' after' => exact fault _ f _ _
  | done b more' after' =>
      cases a with
      | done a more after =>
          obtain ⟨hab, hmore, hmoves'⟩ := h
          exact ⟨hab, htrace.append hmore, hmoves.trans hmoves'⟩
      | failed why more after => exact h
      | fault fault => exact h
  | failed why' more' after' =>
      cases a with
      | done a more after => exact h
      | failed why more after =>
          obtain ⟨hwhy, hmore, hmoves'⟩ := h
          exact ⟨hwhy, htrace.append hmore, hmoves.trans hmoves'⟩
      | fault fault => exact h

end Reply.Mirrors

namespace Parse

variable {p p' : Parse α} {g g' : α → Parse β}

/-- One parser after the other. -/
theorem mirrors_bind (hp : (p ctx pos).Mirrors C pos pos' V (p' ctx' pos'))
    (hg : ∀ a a' q q', V a a' → pos.Moves C pos' q q' →
      (g a ctx q).Mirrors D q q' W (g' a' ctx' q')) :
    ((p >>= g) ctx pos).Mirrors D pos pos' W ((p' >>= g') ctx' pos') := by
  rw [bind_apply, bind_apply]
  cases hb : p' ctx' pos' with
  | fault f trace' after' => exact .fault _ f _ _
  | done a' trace' after' =>
      rw [hb] at hp
      cases ha : p ctx pos with
      | done a trace after =>
          rw [ha] at hp
          obtain ⟨hV, htrace, hmoves⟩ := hp
          exact (hg a a' after after' hV hmoves).behind htrace hmoves
      | failed why trace after =>
          rw [ha] at hp
          exact hp.elim
      | fault fault =>
          rw [ha] at hp
          exact hp.elim
  | failed why' trace' after' =>
      rw [hb] at hp
      cases ha : p ctx pos with
      | done a trace after =>
          rw [ha] at hp
          exact hp.elim
      | failed why trace after =>
          rw [ha] at hp
          exact hp
      | fault fault =>
          rw [ha] at hp
          exact hp.elim

theorem mirrors_pure {a a' : α} (hC : C pos pos') (hV : V a a') :
    ((pure a : Parse α) ctx pos).Mirrors C pos pos' V ((pure a' : Parse α) ctx' pos') :=
  ⟨hV, rfl, .refl hC⟩

theorem mirrors_map {f f' : α → β} (hp : (p ctx pos).Mirrors C pos pos' V (p' ctx' pos'))
    (hf : ∀ a a', V a a' → W (f a) (f' a')) :
    ((f <$> p) ctx pos).Mirrors C pos pos' W ((f' <$> p') ctx' pos') := by
  rw [← bind_pure_comp, ← bind_pure_comp]
  exact mirrors_bind hp fun a a' q q' hV hmoves => mirrors_pure hmoves.holds (hf a a' hV)

theorem mirrors_reject {why why' : Diagnostic} (hlevel : pos.Level pos')
    (h : why.bare = why'.bare) :
    ((reject why : Parse α) ctx pos).Mirrors C pos pos' V
      ((reject why' : Parse α) ctx' pos') :=
  ⟨h, rfl, .refl hlevel⟩

theorem mirrors_note {d d' : Diagnostic} (hC : C pos pos') (h : d.bare = d'.bare) :
    (note d ctx pos).Mirrors C pos pos' (fun _ _ => True) (note d' ctx' pos') :=
  ⟨trivial, by simp [Trace.Same, h], .refl hC⟩

theorem mirrors_fail (h : pos.Twin pos') (expected : List String) :
    ((fail expected : Parse α) ctx pos).Mirrors C pos pos' V
      ((fail expected : Parse α) ctx' pos') := by
  refine ⟨?_, rfl, .refl h.level⟩
  unfold surprise
  cases hrest : pos.rest with
  | nil =>
      rw [h.eq_nil hrest]
      rfl
  | cons t ts =>
      obtain ⟨t', ts', hrest', ht⟩ := h.exists_cons hrest
      rw [hrest']
      exact Diagnostic.unexpected_bare ht expected

theorem mirrors_advance (hrest : pos.rest = t :: ts) (hrest' : pos'.rest = t' :: ts')
    (hC : C (pos.moveTo ts) (pos'.moveTo ts')) :
    (advance ctx pos).Mirrors C pos pos' (fun u u' => u = t ∧ u' = t') (advance ctx' pos') := by
  simp only [advance, hrest, hrest']
  exact ⟨⟨rfl, rfl⟩, rfl, ⟨ts, hrest ▸ List.suffix_cons t ts, rfl⟩,
    ⟨ts', hrest' ▸ List.suffix_cons t' ts', rfl⟩, hC⟩

/-- A closing bracket. -/
theorem mirrors_close (h : pos.Twin pos') :
    (close ctx pos).Mirrors Position.Twin pos pos' (fun _ _ => True) (close ctx' pos') := by
  rw [close, nextCloses_bind_apply, nextCloses_bind_apply,
    h.any_next 0 (f := Token.closes) fun _ _ => closes_eq_of_bare]
  split
  · rename_i hcloses
    obtain ⟨c', rest', hrest', -⟩ := nextCloses_eq_true hcloses
    cases hrest : pos.rest with
    | nil =>
        rw [h.eq_nil hrest] at hrest'
        cases hrest'
    | cons c rest =>
        exact (mirrors_advance hrest hrest' (h.tail hrest hrest')).mono (fun _ _ _ h => h)
          fun _ _ _ => trivial
  · exact mirrors_fail h _

/-- The last step inside a form. -/
theorem mirrors_closed {f f' : Token → β} (h : pos.Twin pos') (hW : ∀ c c', W (f c) (f' c')) :
    ((do let closed ← close; return f closed : Parse β) ctx pos).Mirrors Position.Twin pos pos' W
      ((do let closed ← close; return f' closed : Parse β) ctx' pos') :=
  mirrors_bind (mirrors_close h) fun c c' _ _ _ hmoves => mirrors_pure hmoves.holds (hW c c')

end Parse

/-! ## Names -/

/-- From `pos` and `pos'` a name has been read. -/
def Position.PastName (pos pos' q q' : Position) : Prop :=
  q.Twin q' ∧ ∃ t t', pos.rest = t :: q.rest ∧ pos'.rest = t' :: q'.rest ∧ t.name?.isSome = true

/-- From `pos` names and a closing bracket have been read. -/
def Position.PastNames (pos q q' : Position) : Prop :=
  q.Twin q' ∧ ∃ names c, pos.rest = names ++ c :: q.rest ∧
    (∀ t ∈ names, t.name?.isSome = true) ∧ c.closes = true

theorem Token.balanced_of_names {names : List Token} (h : ∀ t ∈ names, t.name?.isSome = true) :
    Balanced names := by
  induction names with
  | nil => exact balanced_nil
  | cons t names ih =>
      obtain ⟨name, hname⟩ := Option.isSome_iff_exists.1 (h t (by simp))
      obtain ⟨ho, hc⟩ := name?_eq_some hname
      exact (balanced_singleton ho hc).append (ih fun u hu => h u (by simp [hu]))

/-- A bracket, names and a closing bracket are a form. -/
theorem Token.drop_extent_of_names {o c : Token} {names rest : List Token} (ho : o.opens = true)
    (h : ∀ t ∈ names, t.name?.isSome = true) (hc : c.closes = true) :
    (o :: (names ++ c :: rest)).drop (extent (o :: (names ++ c :: rest))) = rest :=
  drop_extent_of_balanced ho (balanced_of_names h) hc rest

namespace Parse

theorem mirrors_identifier (h : pos.Twin pos') (also : List String) :
    (identifier also ctx pos).Mirrors (pos.PastName pos') pos pos'
      (fun i j => i.name = j.name) (identifier also ctx' pos') := by
  rw [identifier, peek_bind_apply, peek_bind_apply]
  cases hrest : pos.rest with
  | nil =>
      rw [h.eq_nil hrest]
      exact mirrors_fail h _
  | cons t ts =>
      obtain ⟨t', ts', hrest', ht⟩ := h.exists_cons hrest
      simp only [hrest', List.getElem?_cons_zero, Option.bind_some, name?_eq_of_bare ht]
      cases hname : t'.name? with
      | none => exact mirrors_fail h _
      | some name =>
          refine mirrors_bind (mirrors_advance hrest hrest' ?_) fun u u' q q' _ hmoves =>
            mirrors_pure hmoves.holds rfl
          refine ⟨h.tail hrest hrest', t, t', hrest, hrest', ?_⟩
          rw [name?_eq_of_bare ht, hname]
          rfl

theorem mirrors_identifiers (h : pos.Twin pos') (rounds : Nat) :
    (identifiers rounds ctx pos).Mirrors pos.PastNames pos pos'
      (fun is js => is.map Identifier.name = js.map Identifier.name)
      (identifiers rounds ctx' pos') := by
  induction rounds generalizing pos pos' with
  | zero => exact .fault _ _ _ _
  | succ rounds ih =>
      rw [identifiers, nextCloses_bind_apply, nextCloses_bind_apply,
        h.any_next 0 (f := Token.closes) fun _ _ => closes_eq_of_bare]
      split
      · rename_i hcloses
        obtain ⟨c', rest', hrest', hc⟩ := nextCloses_eq_true hcloses
        cases hrest : pos.rest with
        | nil =>
            rw [h.eq_nil hrest] at hrest'
            cases hrest'
        | cons c rest =>
            have hc : c.closes = true := by
              rw [closes_eq_of_bare (h.bare_head hrest hrest')]
              exact hc
            refine mirrors_bind (mirrors_advance hrest hrest' ?_) fun _ _ q q' _ hmoves =>
              mirrors_pure hmoves.holds rfl
            exact ⟨h.tail hrest hrest', [], c, hrest, by simp, hc⟩
      · refine mirrors_bind (mirrors_identifier h _) ?_
        rintro i j q q' hij ⟨-, -, hq, t, t', hrest, -, ht⟩
        refine mirrors_bind (ih hq) ?_
        rintro is js r r' hsame ⟨-, -, hr, names, c, hnames, hall, hc⟩
        refine mirrors_pure ⟨hr, t :: names, c, ?_, by simpa [ht] using hall, hc⟩ ?_
        · rw [hrest, hnames, List.cons_append]
        · rw [List.map_cons, List.map_cons, hij, hsame]

theorem repeated?_eq_of_names {is js : List Identifier}
    (h : is.map Identifier.name = js.map Identifier.name) (seen : List String) :
    (repeated? seen is).map Identifier.name = (repeated? seen js).map Identifier.name := by
  induction is generalizing js seen with
  | nil =>
      rw [List.map_nil, eq_comm, List.map_eq_nil_iff] at h
      rw [h]
  | cons i is ih =>
      obtain ⟨j, js, rfl, hij, hjs⟩ := List.map_eq_cons_iff.1 h.symm
      rw [repeated?, repeated?, hij]
      split
      · simp [hij]
      · exact ih hjs.symm _

theorem mirrors_withRounds {p : Nat → Parse α} {p' : Nat → Parse α} (h : pos.Level pos')
    (hp : ∀ rounds, (p rounds ctx pos).Mirrors C pos pos' V (p' rounds ctx' pos')) :
    (withRounds p ctx pos).Mirrors C pos pos' V (withRounds p' ctx' pos') := by
  show (p (pos.rest.length + 1) ctx pos).Mirrors C pos pos' V
    (p' (pos'.rest.length + 1) ctx' pos')
  rw [show pos.rest.length = pos'.rest.length from h]
  exact hp _

theorem mirrors_parameters (h : pos.Twin pos') :
    (parameters ctx pos).Mirrors pos.PastNames pos pos'
      (fun is js => is.map Identifier.name = js.map Identifier.name)
      (parameters ctx' pos') := by
  refine mirrors_bind (mirrors_withRounds h.level fun rounds => mirrors_identifiers h rounds) ?_
  rintro is js q q' hsame hmoves
  have hrepeated := repeated?_eq_of_names hsame []
  rw [distinct, distinct]
  cases hi : repeated? [] is with
  | none =>
      rw [hi, Option.map_none, eq_comm, Option.map_eq_none_iff] at hrepeated
      rw [hrepeated]
      exact mirrors_pure hmoves.holds hsame
  | some i =>
      rw [hi, Option.map_some, eq_comm] at hrepeated
      obtain ⟨j, hj, hij⟩ := Option.map_eq_some_iff.1 hrepeated
      rw [hj]
      refine mirrors_reject hmoves.holds.1.level ?_
      simp only [duplicate, Diagnostic.remark, Diagnostic.bare, Cause.bare, hij]

end Parse

/-! ## Pairs of places -/

/-- The form that begins with the bracket `t` is nested too deeply. -/
def Context.refuses (ctx : Context) (pos : Position) (t : Token) : Bool :=
  ctx.counts pos t && decide (ctx.limit ≤ pos.depth)

/-- How the two runs go together. `C` holds where an expression can begin, `H` just inside a form,
and `T` behind the word `lambda`. -/
structure Parse.Pairing (ctx ctx' : Context) (C H T : Position → Position → Prop) : Prop where
  twin : ∀ pos pos', T pos pos' → pos.Twin pos'
  twin_inside : ∀ pos pos', H pos pos' → pos.Twin pos'
  formals : ∀ pos pos', C pos pos' → T pos pos'
  plain : ∀ pos pos' t ts t' ts', T pos pos' → pos.rest = t :: ts → pos'.rest = t' :: ts' →
    t.opens = false → t.closes = false → C (pos.moveTo ts) (pos'.moveTo ts')
  form : ∀ pos pos' t ts, T pos pos' → pos.rest = t :: ts → t.opens = true →
    C (pos.moveTo (pos.rest.drop (extent pos.rest)))
      (pos'.moveTo (pos'.rest.drop (extent pos'.rest)))
  /-- A form is nested too deeply in both runs, in the same way, or in none. -/
  enter : ∀ pos pos' t ts t' ts', C pos pos' → pos.rest = t :: ts → pos'.rest = t' :: ts' →
    t.opens = true →
    (ctx.refuses pos t = true ∧ ctx'.refuses pos' t' = true ∧ ctx.limit = ctx'.limit) ∨
    (ctx.refuses pos t = false ∧ ctx'.refuses pos' t' = false ∧
      H (pos.enter (ctx.counts pos t) ts) (pos'.enter (ctx'.counts pos' t') ts'))
  inside : ∀ pos pos', H pos pos' →
    pos.rest[0]?.map Token.lexeme ≠ some (.keyword .lambda) → C pos pos'
  word : ∀ pos pos' t ts t' ts', H pos pos' → pos.rest = t :: ts → pos'.rest = t' :: ts' →
    t.lexeme = .keyword .lambda → T (pos.moveTo ts) (pos'.moveTo ts')
  /-- Outside all forms a bracket that closes nothing is passed. -/
  stray : ∀ pos pos' t ts t' ts', C pos pos' → pos.forms = [] → pos.rest = t :: ts →
    pos'.rest = t' :: ts' → t.closes = true → C (pos.moveTo ts) (pos'.moveTo ts')

namespace Parse

variable (G : Pairing ctx ctx' C H T)

include G

theorem Pairing.twin_of (hC : C pos pos') : pos.Twin pos' := G.twin _ _ (G.formals _ _ hC)

/-- A name, where one is behind it. -/
theorem mirrors_name (h : T pos pos') (also : List String) :
    (identifier also ctx pos).Mirrors C pos pos' (fun i j => i.name = j.name)
      (identifier also ctx' pos') := by
  refine (mirrors_identifier (G.twin _ _ h) also).mono ?_ fun _ _ h => h
  rintro q q' hmoves ⟨-, t, t', hrest, hrest', ht⟩
  obtain ⟨name, hname⟩ := Option.isSome_iff_exists.1 ht
  obtain ⟨ho, hc⟩ := name?_eq_some hname
  obtain ⟨⟨us, -, rfl⟩, ⟨us', -, rfl⟩, -⟩ := hmoves
  exact G.plain _ _ _ _ _ _ h hrest hrest' ho hc

/-- Where one is behind names in brackets. -/
theorem holds_of_pastNames {o : Token} (h : T pos pos') (hrest : pos.rest = o :: ts)
    (ho : o.opens = true)
    (hmoves : pos.Moves Position.Level pos' q q') {names : List Token} {c : Token}
    (hnames : ts = names ++ c :: q.rest) (hall : ∀ t ∈ names, t.name?.isSome = true)
    (hc : c.closes = true) : C q q' := by
  have hdrop : q.rest = pos.rest.drop (extent pos.rest) := by
    rw [hrest, hnames]
    exact (drop_extent_of_names ho hall hc).symm
  have htwin := G.twin _ _ h
  have hlevel := htwin.drop_extent.level
  obtain ⟨⟨us, -, rfl⟩, ⟨us', hus', rfl⟩, hq⟩ := hmoves
  simp only [Position.Level, Position.moveTo_rest] at hdrop hlevel hq
  have hus : us' = pos'.rest.drop (extent pos'.rest) :=
    eq_of_suffix hus' (List.drop_suffix _ _) (by rw [← hq, hdrop, hlevel])
  rw [hdrop, hus]
  exact G.form _ _ _ _ h hrest ho

theorem mirrors_formals (h : T pos pos') :
    (formals ctx pos).Mirrors C pos pos'
      (fun v w => v.1 = w.1 ∧ v.2.map Identifier.name = w.2.map Identifier.name)
      (formals ctx' pos') := by
  have htwin := G.twin _ _ h
  rw [formals, peek_bind_apply, peek_bind_apply]
  cases hrest : pos.rest with
  | nil =>
      rw [htwin.eq_nil hrest]
      exact mirrors_fail htwin _
  | cons t ts =>
      obtain ⟨t', ts', hrest', ht⟩ := htwin.exists_cons hrest
      simp only [hrest', List.getElem?_cons_zero]
      rw [name?_eq_of_bare ht, opens_eq_of_bare ht]
      split
      · exact mirrors_bind (mirrors_name G h _) fun i j q q' hij hmoves =>
          mirrors_pure hmoves.holds ⟨rfl, by simp [hij]⟩
      · split
        · rename_i ho
          rw [← opens_eq_of_bare ht] at ho
          refine mirrors_bind (C := fun r r' => r.Twin r' ∧ r.rest = ts)
            (mirrors_advance hrest hrest' ⟨htwin.tail hrest hrest', rfl⟩) ?_
          rintro _ _ q q' - hq
          obtain ⟨hqtwin, hqrest⟩ := hq.holds
          refine mirrors_bind ((mirrors_parameters hqtwin).mono (D := C) ?_ fun _ _ h => h)
            fun is js r r' hsame hmoves => mirrors_pure hmoves.holds ⟨rfl, hsame⟩
          rintro r r' hmoves ⟨hr, names, c, hnames, hall, hc⟩
          exact holds_of_pastNames G h hrest ho (hq.trans (hmoves.mono fun h => h.1.level))
            (hqrest ▸ hnames) hall hc
        · exact mirrors_fail htwin _

end Parse

end SchemeFront
