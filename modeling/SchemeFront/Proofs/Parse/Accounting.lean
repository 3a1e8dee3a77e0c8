import SchemeFront.Proofs.Parse.Containment
import SchemeFront.Proofs.Parse.Mirroring

set_option autoImplicit false

/-! # Findings set against nodes

While tokens are parsed, nodes are made and findings are recorded. A node is given up again if the
form around it cannot be parsed, but a finding never is. A `Parse.Ledger` sets the two against each
other: nodes can be dropped from it, findings cannot, and each error is entered with a finding of
its own. What parsers add to the ledger depends on where they are (`Parse.Route`). It is enough to
say this for single tokens and forms, and then the parsers of names and forms keep the ledger
(`Reply.Accounts`).
-/

namespace SchemeFront

open Token

variable {α β : Type} {ctx : Context} {pos : Position} {C H T : Position → Prop}
  {A : List Node → List Diagnostic → Prop} {n : Nat} {t o : Token} {ts us rest : List Token}
  {why : Diagnostic}

/-! ## Tokens that were seen -/

/-- The tokens of `ts` that are known where `rest` is left: those that were read, and the next
one. -/
def Token.seen (ts rest : List Token) : List Token := ts.take (ts.length - rest.length + 1)

namespace Token

theorem seen_append (xs : List Token) (h : rest <:+ us) :
    seen (xs ++ us) rest = xs ++ seen us rest := by
  have hle := h.length_le
  have hcount : (xs ++ us).length - rest.length + 1
      = xs.length + (us.length - rest.length + 1) := by
    rw [List.length_append]
    omega
  rw [seen, hcount, List.take_length_add_append]
  rfl

theorem seen_subset (hus : us <:+ ts) (hrest : rest <:+ us) : seen us rest ⊆ seen ts rest := by
  obtain ⟨xs, rfl⟩ := hus
  rw [seen_append xs hrest]
  exact List.subset_append_right xs _

theorem mem_seen (hts : (t :: us) <:+ ts) (hrest : rest <:+ t :: us) : t ∈ seen ts rest :=
  seen_subset hts hrest (by simp [seen])

/-- What was seen inside a form belongs to the form. -/
theorem seen_subset_form (ho : o.opens = true) (h : Reaches 0 ts rest) :
    seen ts rest ⊆ (o :: ts).take (extent (o :: ts)) := by
  obtain ⟨xs, rfl, hx⟩ := h
  obtain ⟨d, hd⟩ := Option.isSome_iff_exists.1 hx
  have hextent : extent (o :: (xs ++ rest)) = xs.length + untilClosed (d + 1) rest + 1 := by
    rw [extent, if_pos ho, untilClosed_append hd, Nat.add_comm]
  rw [seen_append xs (List.suffix_refl rest), hextent, List.take_succ_cons,
    List.take_length_add_append]
  refine List.Subset.trans ?_ (List.subset_cons_self o _)
  refine List.append_subset.2 ⟨List.subset_append_left _ _, ?_⟩
  -- The next token, if there is one, is in the form as well.
  cases rest with
  | nil => simp [seen]
  | cons r rest =>
      intro u hu
      obtain rfl : u = r := by simpa [seen] using hu
      rw [untilClosed, Nat.add_comm, List.take_succ_cons]
      simp

end Token

/-- The reason for a failure where the given tokens were seen: one of them, or the end of the
input. -/
inductive Parse.Blames (ctx : Context) (seen : List Token) : Diagnostic → Prop
  | ended (expected : List String) :
      Blames ctx seen (Diagnostic.unexpected ctx.endOfInput none expected)
  | token {t : Token} (ht : t ∈ seen) (expected : List String) :
      Blames ctx seen (Diagnostic.unexpected t.span (some (.token t)) expected)
  | misplaced {t : Token} (ht : t ∈ seen) : Blames ctx seen (Parse.misplaced t.span)
  | duplicate {t : Token} {i : Identifier} (ht : t ∈ seen) (hi : t.span = i.span) :
      Blames ctx seen (Parse.duplicate i)

theorem Parse.Blames.mono (h : Blames ctx us why) (hs : us ⊆ ts) : Blames ctx ts why := by
  cases h with
  | ended expected => exact .ended expected
  | token ht expected => exact .token (hs ht) expected
  | misplaced ht => exact .misplaced (hs ht)
  | duplicate ht hi => exact .duplicate (hs ht) hi

/-! ## Ledgers -/

/-- How nodes are set against findings. A node that is no error is as good as the nodes right below
it, and `C` holds where an expression can begin. -/
structure Parse.Ledger (ctx : Context) (C : Position → Prop)
    (A : List Node → List Diagnostic → Prop) : Prop where
  nil : A [] []
  append : ∀ {xs ys ms ns}, A xs ms → A ys ns → A (xs ++ ys) (ms ++ ns)
  perm : ∀ {xs ys ms}, xs.Perm ys → A xs ms → A ys ms
  discard : ∀ {xs ms}, A xs ms → A [] ms
  node : ∀ {n ms}, n.isErrorExpr = false → A n.children ms → A [n] ms
  /-- A form is nested too deeply. -/
  refused : ∀ pos t ts construct s, C pos → pos.rest = t :: ts → t.opens = true →
    ctx.refuses pos t = true → cover (pos.rest.take (extent pos.rest)) ctx.endOfInput = .ok s →
    A [.expr (.error s)] [Diagnostic.tooDeep ctx.limit t.span construct]
  /-- What is inside a form could not be parsed. -/
  broken : ∀ pos t ts construct why s, C pos → pos.rest = t :: ts → t.opens = true →
    Blames ctx (pos.rest.take (extent pos.rest)) why →
    cover (pos.rest.take (extent pos.rest)) ctx.endOfInput = .ok s →
    A [.expr (.error s)] [explain t construct why]
  /-- A word stands in the place of an expression. -/
  word : ∀ t : Token, A [.expr (.error t.span)]
    [Diagnostic.unexpected t.span (some (.token t)) [expressionName]]
  late : ∀ d : Definition, A [.expr (.error d.span)] [late d.span]
  stray : ∀ t, A [] [strayClose t]
  /-- There is no expression at all. -/
  missing : A [.expr (.error ctx.endOfInput)]
    [Diagnostic.unexpected ctx.endOfInput none [definitionName, expressionName]]

/-- The places that a parser comes to. `C` holds where an expression can begin, `H` just inside a
form, and `T` behind the word `lambda`. -/
structure Parse.Route (ctx : Context) (C H T : Position → Prop) : Prop where
  formals : ∀ pos, C pos → T pos
  plain : ∀ pos t ts, T pos → pos.rest = t :: ts → t.opens = false → t.closes = false →
    C (pos.moveTo ts)
  form : ∀ pos t ts, T pos → pos.rest = t :: ts → t.opens = true →
    C (pos.moveTo (pos.rest.drop (extent pos.rest)))
  enter : ∀ pos t ts, C pos → pos.rest = t :: ts → t.opens = true →
    ctx.refuses pos t = false → H (pos.enter (ctx.counts pos t) ts)
  inside : ∀ pos, H pos → pos.rest[0]?.map Token.lexeme ≠ some (.keyword .lambda) → C pos
  word : ∀ pos t ts, H pos → pos.rest = t :: ts → t.lexeme = .keyword .lambda →
    T (pos.moveTo ts)
  /-- Outside all forms a bracket that closes nothing is passed. -/
  stray : ∀ pos t ts, C pos → pos.forms = [] → pos.rest = t :: ts → t.closes = true →
    C (pos.moveTo ts)

/-! ## Answers -/

/-- The answer to reading on from `pos`. `D` holds of a value, the findings, and the place one has
come to. A failure blames a token that was seen, and what was found before it is entered without
any nodes. -/
def Reply.Accounts (A : List Node → List Diagnostic → Prop) (ctx : Context) (pos : Position)
    (D : α → List Diagnostic → Position → Prop) : Reply α → Prop
  | done a trace after => (∃ rest, rest <:+ pos.rest ∧ after = pos.moveTo rest) ∧
      D a trace.notes after
  | failed why trace after => (∃ rest, rest <:+ pos.rest ∧ after = pos.moveTo rest ∧
      Parse.Blames ctx (seen pos.rest rest) why) ∧ A [] trace.notes
  | fault _ _ _ => True

/-- The nodes `f a` are entered, and one has come to a place where `C` holds. -/
def Parse.Enters (A : List Node → List Diagnostic → Prop) (C : Position → Prop)
    (f : α → List Node) (a : α) (ms : List Diagnostic) (after : Position) : Prop :=
  C after ∧ A (f a) ms

namespace Reply.Accounts

variable {D E : α → List Diagnostic → Position → Prop} {r : Reply α}

theorem mono (h : r.Accounts A ctx pos D)
    (hD : ∀ a ms us, us <:+ pos.rest → D a ms (pos.moveTo us) → E a ms (pos.moveTo us)) :
    r.Accounts A ctx pos E := by
  cases r with
  | done a trace after =>
      obtain ⟨⟨us, hus, rfl⟩, ha⟩ := h
      exact ⟨⟨us, hus, rfl⟩, hD a _ us hus ha⟩
  | failed why trace after => exact h
  | fault f trace after => trivial

/-- An answer to reading on from where one had come to. -/
theorem of_suffix (hus : us <:+ pos.rest) (h : r.Accounts A ctx (pos.moveTo us) D) :
    r.Accounts A ctx pos D := by
  cases r with
  | done a trace after =>
      obtain ⟨⟨rest, hrest, hafter⟩, ha⟩ := h
      exact ⟨⟨rest, hrest.trans hus, hafter⟩, ha⟩
  | failed why trace after =>
      obtain ⟨⟨rest, hrest, hafter, hwhy⟩, hnotes⟩ := h
      exact ⟨⟨rest, hrest.trans hus, hafter, hwhy.mono (seen_subset hus hrest)⟩, hnotes⟩
  | fault f trace after => trivial

/-- The answer with what was found before. -/
theorem behind {trace : Trace} (hbefore : A [] trace.notes)
    (happend : ∀ {ms ns}, A [] ms → A [] ns → A [] (ms ++ ns))
    (h : r.Accounts A ctx pos fun a ms q => D a (trace.notes ++ ms) q) :
    (r.behind trace).Accounts A ctx pos D := by
  cases r with
  | done a more after => exact h
  | failed why more after => exact ⟨h.1, happend hbefore h.2⟩
  | fault f more after => trivial

end Reply.Accounts

namespace Parse

variable {p : Parse α} {g : α → Parse β} {D : α → List Diagnostic → Position → Prop}
  {E : β → List Diagnostic → Position → Prop}

theorem Ledger.append_nil (L : Ledger ctx C A) {ms ns : List Diagnostic} (hms : A [] ms)
    (hns : A [] ns) : A [] (ms ++ ns) := L.append hms hns

/-- What is known about the nodes of a value is more than what is left if they are given up. -/
theorem Ledger.discard_enters (L : Ledger ctx C A) {C' : Position → Prop} {f : α → List Node}
    (a : α) (ms : List Diagnostic) (q : Position) (h : Enters A C' f a ms q) : A [] ms :=
  L.discard h.2

variable (L : Ledger ctx C A)

include L

/-- One parser after the other. The second one may blame what was seen by the first. -/
theorem accounts_bind_from (hp : (p ctx pos).Accounts A ctx pos D)
    (hD : ∀ a ms q, D a ms q → A [] ms)
    (hg : ∀ a ms us, us <:+ pos.rest → D a ms (pos.moveTo us) →
      (g a ctx (pos.moveTo us)).Accounts A ctx pos fun b ns q => E b (ms ++ ns) q) :
    ((p >>= g) ctx pos).Accounts A ctx pos E := by
  rw [bind_apply]
  cases hr : p ctx pos with
  | done a trace after =>
      rw [hr] at hp
      obtain ⟨⟨us, hus, rfl⟩, ha⟩ := hp
      exact (hg a _ us hus ha).behind (hD a _ _ ha) L.append_nil
  | failed why trace after =>
      rw [hr] at hp
      exact hp
  | fault f trace after => trivial

/-- One parser after the other. -/
theorem accounts_bind (hp : (p ctx pos).Accounts A ctx pos D) (hD : ∀ a ms q, D a ms q → A [] ms)
    (hg : ∀ a ms us, us <:+ pos.rest → D a ms (pos.moveTo us) →
      (g a ctx (pos.moveTo us)).Accounts A ctx (pos.moveTo us) fun b ns q => E b (ms ++ ns) q) :
    ((p >>= g) ctx pos).Accounts A ctx pos E :=
  accounts_bind_from L hp hD fun a ms us hus ha => (hg a ms us hus ha).of_suffix hus

omit L in
theorem accounts_pure {a : α} (ha : D a [] pos) :
    ((pure a : Parse α) ctx pos).Accounts A ctx pos D :=
  ⟨⟨pos.rest, List.suffix_refl _, rfl⟩, ha⟩

omit L in
theorem accounts_map {f : α → β} (hp : (p ctx pos).Accounts A ctx pos fun a ms q => E (f a) ms q) :
    ((f <$> p) ctx pos).Accounts A ctx pos E := by
  rw [← bind_pure_comp, bind_apply]
  cases hr : p ctx pos with
  | done a trace after =>
      rw [hr] at hp
      simp only [pure_apply, Reply.behind, Trace.append_empty]
      exact hp
  | failed why trace after =>
      rw [hr] at hp
      exact hp
  | fault f trace after => trivial

theorem accounts_fail (expected : List String) :
    ((fail expected : Parse α) ctx pos).Accounts A ctx pos D := by
  refine ⟨⟨pos.rest, List.suffix_refl _, rfl, ?_⟩, L.nil⟩
  unfold surprise
  cases hrest : pos.rest with
  | nil => exact .ended _
  | cons t ts => exact .token (mem_seen (List.suffix_refl _) (List.suffix_refl _)) _

omit L in
/-- A token is read first. -/
theorem accounts_advance_bind {g : Token → Parse β} (hrest : pos.rest = t :: ts)
    (hg : (g t ctx (pos.moveTo ts)).Accounts A ctx (pos.moveTo ts) E) :
    ((advance >>= g) ctx pos).Accounts A ctx pos E := by
  have hts : ts <:+ pos.rest := hrest ▸ List.suffix_cons t ts
  rw [bind_apply, advance, hrest]
  dsimp only
  have hlast := hg.of_suffix hts
  cases hr : g t ctx (pos.moveTo ts) with
  | done b more last =>
      rw [hr] at hlast
      exact hlast
  | failed why more last =>
      rw [hr] at hlast
      exact hlast
  | fault f more last => trivial

/-- The last step inside a form: its closing bracket. -/
theorem accounts_closed {f : Token → β} (hE : ∀ c q, E (f c) [] q) :
    ((do let closed ← close; return f closed : Parse β) ctx pos).Accounts A ctx pos E := by
  rw [close, bind_assoc, nextCloses_bind_apply]
  split
  · rename_i hcloses
    obtain ⟨c, rest, hrest, -⟩ := nextCloses_eq_true hcloses
    exact accounts_advance_bind hrest (accounts_pure (hE c _))
  · exact accounts_bind L (D := fun _ _ _ => False) (accounts_fail L _) (fun _ _ _ h => h.elim)
      fun _ _ _ _ h => h.elim

/-! ## Names -/

omit L in
/-- The name is that of the next token, and nothing is found. -/
theorem accounts_identifier (L : Ledger ctx C A) (also : List String) :
    (identifier also ctx pos).Accounts A ctx pos fun i ms q =>
      ms = [] ∧ ∃ t, pos.rest = t :: q.rest ∧ t.name?.isSome = true ∧ t.span = i.span := by
  rw [identifier, peek_bind_apply]
  cases hrest : pos.rest with
  | nil => exact accounts_fail L _
  | cons t ts =>
      simp only [List.getElem?_cons_zero, Option.bind_some]
      cases hname : t.name? with
      | none => exact accounts_fail L _
      | some name =>
          refine accounts_advance_bind hrest (accounts_pure ⟨rfl, t, rfl, ?_, rfl⟩)
          rw [hname]
          rfl

/-- Names up to a closing bracket are those of tokens, and nothing is found. -/
theorem accounts_identifiers (rounds : Nat) :
    (identifiers rounds ctx pos).Accounts A ctx pos fun is ms q =>
      ms = [] ∧ ∃ names c, pos.rest = names ++ c :: q.rest ∧
        (∀ t ∈ names, t.name?.isSome = true) ∧ c.closes = true ∧
        names.map Token.span = is.map Identifier.span := by
  induction rounds generalizing pos with
  | zero => trivial
  | succ rounds ih =>
      rw [identifiers, nextCloses_bind_apply]
      split
      · rename_i hcloses
        obtain ⟨c, rest, hrest, hc⟩ := nextCloses_eq_true hcloses
        exact accounts_advance_bind hrest
          (accounts_pure ⟨rfl, [], c, hrest, by simp, hc, rfl⟩)
      · refine accounts_bind L (accounts_identifier L _) (fun _ _ _ h => h.1 ▸ L.nil) ?_
        rintro i ms us - ⟨rfl, t, hrest, ht, hi⟩
        refine accounts_bind L ih (fun _ _ _ h => h.1 ▸ L.nil) ?_
        rintro is ms vs - ⟨rfl, names, c, hnames, hall, hc, his⟩
        refine accounts_pure ⟨rfl, t :: names, c, ?_, by simpa [ht] using hall, hc, ?_⟩
        · rw [hrest]
          exact congrArg (t :: ·) hnames
        · rw [List.map_cons, List.map_cons, hi, his]

omit L in
theorem accounts_withRounds {p : Nat → Parse α}
    (hp : ∀ rounds, (p rounds ctx pos).Accounts A ctx pos D) :
    (withRounds p ctx pos).Accounts A ctx pos D := hp _

/-- The parameters, up to their closing bracket. One that was named before is blamed for it. -/
theorem accounts_parameters :
    (parameters ctx pos).Accounts A ctx pos fun _ ms q =>
      ms = [] ∧ ∃ names c, pos.rest = names ++ c :: q.rest ∧
        (∀ t ∈ names, t.name?.isSome = true) ∧ c.closes = true := by
  refine accounts_bind_from L (accounts_withRounds (accounts_identifiers L))
    (fun _ _ _ h => h.1 ▸ L.nil) ?_
  rintro is ms us hus ⟨rfl, names, c, hnames, hall, hc, his⟩
  rw [Position.moveTo_rest] at hnames
  rw [distinct]
  cases hi : repeated? [] is with
  | none => exact (accounts_pure ⟨rfl, names, c, hnames, hall, hc⟩).of_suffix hus
  | some i =>
      have hmem : i.span ∈ names.map Token.span :=
        his ▸ List.mem_map_of_mem (mem_of_repeated? hi)
      obtain ⟨t, ht, hspan⟩ := List.mem_map.1 hmem
      obtain ⟨before, behind, rfl⟩ := List.append_of_mem ht
      have hseen : t ∈ seen pos.rest us := by
        have hthere : (t :: (behind ++ c :: us)) <:+ pos.rest := ⟨before, by simp [hnames]⟩
        exact mem_seen hthere ⟨t :: (behind ++ [c]), by simp⟩
      exact ⟨⟨us, hus, rfl, .duplicate hseen hspan⟩, L.nil⟩

theorem Ledger.identifiers (is : List Identifier) : A (is.map .identifier) [] := by
  induction is with
  | nil => exact L.nil
  | cons i is ih => exact L.append (L.node (n := .identifier i) rfl L.nil) ih

/-! ## Names and the places behind them -/

variable (R : Route ctx C H T)

include R

/-- A name, where one is behind it. -/
theorem accounts_name (hT : T pos) (also : List String) :
    (identifier also ctx pos).Accounts A ctx pos (Enters A C fun i => [.identifier i]) := by
  refine (accounts_identifier L also).mono ?_
  rintro i ms us - ⟨rfl, t, hrest, ht, -⟩
  obtain ⟨name, hname⟩ := Option.isSome_iff_exists.1 ht
  obtain ⟨ho, hc⟩ := name?_eq_some hname
  exact ⟨R.plain _ _ _ hT hrest ho hc, L.node rfl L.nil⟩

/-- The names in brackets are a form, so one is behind it when they were read. -/
theorem accounts_names (hT : T pos) (hrest : pos.rest = o :: ts) (ho : o.opens = true) :
    (parameters ctx (pos.moveTo ts)).Accounts A ctx (pos.moveTo ts)
      (Enters A C fun is => is.map .identifier) := by
  refine (accounts_parameters L).mono ?_
  rintro is ms us - ⟨rfl, names, c, hnames, hall, hc⟩
  have hbehind := R.form _ _ _ hT hrest ho
  rw [Position.moveTo_rest] at hnames
  rw [hrest, hnames, drop_extent_of_names ho hall hc] at hbehind
  exact ⟨hbehind, L.identifiers is⟩

theorem accounts_formals (hT : T pos) :
    (formals ctx pos).Accounts A ctx pos (Enters A C fun v => v.2.map .identifier) := by
  rw [formals, peek_bind_apply]
  cases hrest : pos.rest with
  | nil => exact accounts_fail L _
  | cons t ts =>
      simp only [List.getElem?_cons_zero]
      split
      · refine accounts_bind L (accounts_name L R hT _) L.discard_enters ?_
        rintro i ms us - ⟨hC, hi⟩
        exact accounts_pure ⟨hC, by simpa using hi⟩
      · split
        · rename_i ho
          refine accounts_advance_bind hrest ?_
          refine accounts_bind L (accounts_names L R hT hrest ho) L.discard_enters ?_
          rintro is ms us - ⟨hC, his⟩
          exact accounts_pure ⟨hC, by simpa using his⟩
        · exact accounts_fail L _

end Parse

end SchemeFront
