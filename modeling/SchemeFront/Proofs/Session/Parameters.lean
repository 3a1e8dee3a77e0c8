import SchemeFront.Proofs.Session.Programs

set_option autoImplicit false

/-! # Parameters are checked completely

Behind the bracket of a list of parameters stand names, up to a closing bracket (`Token.Lists`) or
up to what is neither (`Token.BreaksOff`); one of both is so (`Token.lists_or_breaksOff`). The
parser of parameters reads the names first and compares them afterwards. So a list that breaks off
is refused where it does, whatever was named twice before, and in a list that is closed the first
name that was there before is refused. No procedure in any program has two parameters of one name
(`Session.parameters_are_distinct`).
-/

namespace SchemeFront

open Token

variable {ctx : Context} {pos : Position} {ts us rest : List Token} {is : List Identifier}
  {i : Identifier}

/-! ## Lists of names -/

namespace Token

/-- The tokens begin with the names `is` and a closing bracket, behind which `rest` is left. -/
def Lists (ts : List Token) (is : List Identifier) (rest : List Token) : Prop :=
  ∃ c, c.closes = true ∧ ts = is.map Identifier.token ++ c :: rest

/-- The tokens begin with the names `is`. Behind them `us` is left, where neither a name nor a
closing bracket comes next. -/
structure BreaksOff (ts : List Token) (is : List Identifier) (us : List Token) : Prop where
  eq_append : ts = is.map Identifier.token ++ us
  head : ∀ t ∈ us.head?, t.name? = none ∧ t.closes = false

/-- A name is written as the token it was read from. -/
theorem exists_identifier_token {t : Token} {name : String} (h : t.name? = some name) :
    ∃ i : Identifier, t = i.token := by
  refine ⟨⟨name, t.span⟩, ?_⟩
  rw [Identifier.token, ← lexeme_of_name? h]

/-- Names are followed by a closing bracket or by something else. -/
theorem lists_or_breaksOff (ts : List Token) :
    (∃ is rest, Lists ts is rest) ∨ ∃ is us, BreaksOff ts is us := by
  induction ts with
  | nil => exact .inr ⟨[], [], rfl, by simp⟩
  | cons t ts ih =>
      cases hc : t.closes with
      | true => exact .inl ⟨[], ts, t, hc, rfl⟩
      | false =>
          cases hname : t.name? with
          | none => exact .inr ⟨[], t :: ts, rfl, by simp [hname, hc]⟩
          | some name =>
              obtain ⟨i, rfl⟩ := exists_identifier_token hname
              rcases ih with ⟨is, rest, c, hc, rfl⟩ | ⟨is, us, rfl, hhead⟩
              · exact .inl ⟨i :: is, rest, c, hc, rfl⟩
              · exact .inr ⟨i :: is, us, rfl, hhead⟩

end Token

/-! ## Names that were there before -/

/-- The identifier `i` has the name of one that stands before it, and is the first that has. -/
def Identifier.FirstRepeated (is : List Identifier) (i : Identifier) : Prop :=
  ∃ xs ys, is = xs ++ i :: ys ∧ Distinct xs ∧ i.name ∈ xs.map Identifier.name

namespace Parse

/-- The first identifier whose name was seen before it. -/
theorem repeated?_eq_some_iff (seen : List String) (is : List Identifier) (i : Identifier) :
    repeated? seen is = some i ↔ ∃ xs ys, is = xs ++ i :: ys ∧ Identifier.Distinct xs ∧
      (∀ x ∈ xs, x.name ∉ seen) ∧ (i.name ∈ seen ∨ i.name ∈ xs.map Identifier.name) := by
  induction is generalizing seen with
  | nil => simp [repeated?]
  | cons j js ih =>
      rw [repeated?]
      by_cases hj : j.name ∈ seen
      · rw [if_pos (List.contains_iff_mem.2 hj), Option.some.injEq]
        constructor
        · rintro rfl
          exact ⟨[], js, rfl, by simp [Identifier.Distinct], by simp, .inl hj⟩
        · rintro ⟨xs, ys, heq, -, hseen, -⟩
          cases xs with
          | nil => exact (List.cons.inj heq).1
          | cons x xs =>
              obtain ⟨rfl, -⟩ := List.cons.inj heq
              exact absurd hj (hseen j (by simp))
      · rw [if_neg (by rwa [List.contains_iff_mem]), ih]
        constructor
        · rintro ⟨xs, ys, rfl, hdistinct, hseen, hi⟩
          refine ⟨j :: xs, ys, rfl, ?_, ?_, ?_⟩
          · rw [Identifier.Distinct, List.map_cons, List.nodup_cons]
            refine ⟨?_, hdistinct⟩
            intro hmem
            obtain ⟨x, hx, hname⟩ := List.mem_map.1 hmem
            exact hseen x hx (by simp [hname])
          · intro x hx
            rcases List.mem_cons.1 hx with rfl | hx
            · exact hj
            · exact fun hmem => hseen x hx (List.mem_cons_of_mem _ hmem)
          · rw [List.map_cons, List.mem_cons]
            rw [List.mem_cons] at hi
            rcases hi with (h | h) | h
            · exact .inr (.inl h)
            · exact .inl h
            · exact .inr (.inr h)
        · rintro ⟨xs, ys, heq, hdistinct, hseen, hi⟩
          cases xs with
          | nil =>
              -- The first name is not among those that were seen, and none is before it.
              obtain ⟨rfl, -⟩ := List.cons.inj heq
              simp [hj] at hi
          | cons x xs =>
              obtain ⟨rfl, rfl⟩ := List.cons.inj heq
              rw [Identifier.Distinct, List.map_cons, List.nodup_cons] at hdistinct
              refine ⟨xs, ys, rfl, hdistinct.2, ?_, ?_⟩
              · intro x hx hmem
                rcases List.mem_cons.1 hmem with h | h
                · exact hdistinct.1 (h ▸ List.mem_map_of_mem hx)
                · exact hseen x (List.mem_cons_of_mem _ hx) h
              · rw [List.map_cons, List.mem_cons] at hi
                rw [List.mem_cons]
                rcases hi with h | h | h
                · exact .inl (.inr h)
                · exact .inl (.inl h)
                · exact .inr h

theorem repeated?_nil_eq_some_iff (is : List Identifier) (i : Identifier) :
    repeated? [] is = some i ↔ Identifier.FirstRepeated is i := by
  simp [repeated?_eq_some_iff, Identifier.FirstRepeated]

/-! ## The parser of names -/

/-- The next token is taken. -/
theorem advance_apply {t : Token} (hrest : pos.rest = t :: ts) :
    advance ctx pos = .done t (.ofPosition (pos.moveTo ts)) (pos.moveTo ts) := by
  rw [advance, hrest]

/-- A name is read. -/
theorem identifier_apply (also : List String) (hrest : pos.rest = i.token :: ts) :
    identifier also ctx pos = .done i (.ofPosition (pos.moveTo ts)) (pos.moveTo ts) := by
  have hname : (pos.rest[0]?).bind Token.name? = some i.name := by
    rw [hrest]
    rfl
  rw [identifier, peek_bind_apply, hname]
  dsimp only
  rw [bind_apply, advance_apply hrest]
  rfl

/-- What is no name is refused. -/
theorem identifier_apply_of_not_name (also : List String)
    (hhead : ∀ t ∈ pos.rest.head?, t.name? = none) :
    identifier also ctx pos = .failed (surprise ctx pos (identifierName :: also)) ∅ pos := by
  have hname : (pos.rest[0]?).bind Token.name? = none := by
    rw [← List.head?_eq_getElem?]
    exact Option.bind_eq_none_iff.2 hhead
  rw [identifier, peek_bind_apply, hname]
  rfl

/-- One step of reading names. -/
theorem identifiers_succ_apply (hrest : pos.rest = i.token :: ts) (rounds : Nat) :
    identifiers (rounds + 1) ctx pos =
      ((identifiers rounds >>= fun more => pure (i :: more)) ctx (pos.moveTo ts)).behind
        (.ofPosition (pos.moveTo ts)) := by
  have hcloses : (pos.rest[0]?).any Token.closes = false := by
    rw [hrest]
    rfl
  rw [identifiers, nextCloses_bind_apply, hcloses, if_neg Bool.false_ne_true, bind_apply,
    identifier_apply [")"] hrest]

/-- A closing bracket ends the names. -/
theorem identifiers_succ_apply_of_closes {c : Token} (hrest : pos.rest = c :: rest)
    (hc : c.closes = true) (rounds : Nat) :
    identifiers (rounds + 1) ctx pos =
      .done [] (.ofPosition (pos.moveTo rest)) (pos.moveTo rest) := by
  have hcloses : (pos.rest[0]?).any Token.closes = true := by
    rw [hrest]
    exact hc
  rw [identifiers, nextCloses_bind_apply, hcloses, if_pos rfl, bind_apply, advance_apply hrest]
  rfl

/-- What is neither a name nor a closing bracket is refused. -/
theorem identifiers_succ_apply_of_neither
    (hhead : ∀ t ∈ pos.rest.head?, t.name? = none ∧ t.closes = false) (rounds : Nat) :
    identifiers (rounds + 1) ctx pos =
      .failed (surprise ctx pos [identifierName, ")"]) ∅ pos := by
  have hcloses : (pos.rest[0]?).any Token.closes = false := by
    cases hnext : pos.rest with
    | nil => rfl
    | cons t ts => exact (hhead t (by rw [hnext, List.head?_cons]; rfl)).2
  rw [identifiers, nextCloses_bind_apply, hcloses, if_neg Bool.false_ne_true, bind_apply,
    identifier_apply_of_not_name [")"] fun t ht => (hhead t ht).1]

/-- Names are read one after the other, with a round for each, whatever is behind them. -/
theorem exists_identifiers_append (ctx : Context)
    (hrest : pos.rest = is.map Identifier.token ++ us) (rounds : Nat) :
    ∃ trace, trace.notes = [] ∧ identifiers (is.length + rounds) ctx pos =
      ((identifiers rounds >>= fun js => pure (is ++ js)) ctx (pos.moveTo us)).behind trace := by
  induction is generalizing pos with
  | nil =>
      obtain rfl : pos.rest = us := hrest
      refine ⟨∅, rfl, ?_⟩
      rw [Position.moveTo_self]
      simp only [List.length_nil, Nat.zero_add, List.nil_append, bind_pure, Reply.behind_empty]
  | cons i is ih =>
      rw [List.map_cons, List.cons_append] at hrest
      have hmoved : (pos.moveTo (is.map Identifier.token ++ us)).rest =
          is.map Identifier.token ++ us := rfl
      obtain ⟨trace, hnotes, hmore⟩ := ih hmoved
      rw [Position.moveTo_moveTo] at hmore
      refine ⟨.ofPosition (pos.moveTo (is.map Identifier.token ++ us)) ++ trace, ?_, ?_⟩
      · simp [hnotes]
      · rw [List.length_cons, Nat.succ_add, identifiers_succ_apply hrest, bind_apply, hmore,
          bind_apply, bind_apply]
        cases identifiers rounds ctx (pos.moveTo us) <;> simp [Reply.behind, Trace.append_assoc]

/-- Names are read up to a closing bracket. -/
theorem exists_identifiers_of_lists {rounds : Nat} (ctx : Context) (h : Lists pos.rest is rest)
    (hrounds : is.length < rounds) :
    ∃ trace, identifiers rounds ctx pos = .done is trace (pos.moveTo rest) ∧ trace.notes = [] := by
  obtain ⟨c, hc, hrest⟩ := h
  obtain ⟨more, rfl⟩ : ∃ more, rounds = is.length + (more + 1) :=
    ⟨rounds - is.length - 1, by omega⟩
  obtain ⟨trace, hnotes, hread⟩ := exists_identifiers_append ctx hrest (more + 1)
  have hmoved : (pos.moveTo (c :: rest)).rest = c :: rest := rfl
  rw [bind_apply, identifiers_succ_apply_of_closes hmoved hc, Position.moveTo_moveTo] at hread
  dsimp only [pure_apply, Reply.behind] at hread
  rw [List.append_nil] at hread
  exact ⟨_, hread, by simp [hnotes]⟩

/-- What is neither a name nor a closing bracket is refused, however many names are before it. -/
theorem exists_identifiers_of_breaksOff {rounds : Nat} (ctx : Context)
    (h : BreaksOff pos.rest is us) (hrounds : is.length < rounds) :
    ∃ trace, identifiers rounds ctx pos =
        .failed (surprise ctx (pos.moveTo us) [identifierName, ")"]) trace (pos.moveTo us) ∧
      trace.notes = [] := by
  obtain ⟨more, rfl⟩ : ∃ more, rounds = is.length + (more + 1) :=
    ⟨rounds - is.length - 1, by omega⟩
  obtain ⟨trace, hnotes, hread⟩ := exists_identifiers_append ctx h.eq_append (more + 1)
  rw [bind_apply, identifiers_succ_apply_of_neither h.head] at hread
  exact ⟨_, hread, by simp [hnotes]⟩

/-! ## The parser of parameters -/

/-- A round for each token that is left is enough for all names. -/
theorem length_lt_rounds {ts us : List Token} (h : ts = is.map Identifier.token ++ us) :
    is.length < ts.length + 1 := by
  rw [h, List.length_append, List.length_map]
  omega

/-- A closed list of different names is read. -/
theorem exists_parameters_of_distinct (ctx : Context) (h : Lists pos.rest is rest)
    (hdistinct : Identifier.Distinct is) :
    ∃ trace, parameters ctx pos = .done is trace (pos.moveTo rest) ∧ trace.notes = [] := by
  obtain ⟨c, -, hrest⟩ := id h
  obtain ⟨trace, hread, hnotes⟩ :=
    exists_identifiers_of_lists ctx h (length_lt_rounds hrest)
  have hnone : repeated? [] is = none := (repeated?_eq_none_iff [] is).2 ⟨hdistinct, by simp⟩
  refine ⟨trace, ?_, hnotes⟩
  rw [parameters, bind_apply, withRounds, hread]
  simp only [distinct, hnone, pure_apply, Reply.behind, Trace.append_empty]

/-- A closed list is refused at the first name that was there before. -/
theorem exists_parameters_of_repeated (ctx : Context) (h : Lists pos.rest is rest)
    (hi : Identifier.FirstRepeated is i) :
    ∃ trace, parameters ctx pos = .failed (duplicate i) trace (pos.moveTo rest) ∧
      trace.notes = [] := by
  obtain ⟨c, -, hrest⟩ := id h
  obtain ⟨trace, hread, hnotes⟩ :=
    exists_identifiers_of_lists ctx h (length_lt_rounds hrest)
  have hsome : repeated? [] is = some i := (repeated?_nil_eq_some_iff is i).2 hi
  refine ⟨trace, ?_, hnotes⟩
  rw [parameters, bind_apply, withRounds, hread]
  simp only [distinct, hsome, reject, Reply.behind, Trace.append_empty]

/-- What is said where a list of parameters breaks off and `us` is left: at the next token, or at
the end of the input, a closing bracket or an identifier was expected. -/
def brokenOff (ctx : Context) (us : List Token) : Diagnostic where
  span := (us.head?.map Token.span).getD ctx.endOfInput
  cause := .unexpected (us.head?.map Found.token) [")", "<identifier>"]

theorem surprise_eq_brokenOff (ctx : Context) (pos : Position) :
    surprise ctx pos [identifierName, ")"] = brokenOff ctx pos.rest := by
  have hexpected : alternatives [identifierName, ")"] = [")", "<identifier>"] := by
    decide +kernel
  unfold surprise brokenOff
  cases pos.rest <;> simp [Diagnostic.unexpected, hexpected]

/-- A list that breaks off is refused where it does, before names are compared. -/
theorem exists_parameters_of_breaksOff (ctx : Context) (h : BreaksOff pos.rest is us) :
    ∃ trace, parameters ctx pos = .failed (brokenOff ctx us) trace (pos.moveTo us) ∧
      trace.notes = [] := by
  obtain ⟨trace, hread, hnotes⟩ :=
    exists_identifiers_of_breaksOff ctx h (length_lt_rounds h.eq_append)
  refine ⟨trace, ?_, hnotes⟩
  rw [parameters, bind_apply, withRounds, hread, surprise_eq_brokenOff, Position.moveTo_rest]

/-- One of the three answers is given. -/
theorem parameters_cases (ctx : Context) (pos : Position) :
    (∃ is rest trace, Lists pos.rest is rest ∧ Identifier.Distinct is ∧
        parameters ctx pos = .done is trace (pos.moveTo rest) ∧ trace.notes = []) ∨
      (∃ is us trace, BreaksOff pos.rest is us ∧
        parameters ctx pos = .failed (brokenOff ctx us) trace (pos.moveTo us) ∧
        trace.notes = []) ∨
      ∃ is i rest trace, Lists pos.rest is rest ∧ Identifier.FirstRepeated is i ∧
        parameters ctx pos = .failed (duplicate i) trace (pos.moveTo rest) ∧ trace.notes = [] := by
  rcases lists_or_breaksOff pos.rest with ⟨is, rest, hlists⟩ | ⟨is, us, hbreaks⟩
  · cases hrepeated : repeated? [] is with
    | none =>
        have hdistinct := ((repeated?_eq_none_iff [] is).1 hrepeated).1
        obtain ⟨trace, hdone, hnotes⟩ := exists_parameters_of_distinct ctx hlists hdistinct
        exact .inl ⟨is, rest, trace, hlists, hdistinct, hdone, hnotes⟩
    | some i =>
        have hfirst := (repeated?_nil_eq_some_iff is i).1 hrepeated
        obtain ⟨trace, hfailed, hnotes⟩ := exists_parameters_of_repeated ctx hlists hfirst
        exact .inr (.inr ⟨is, i, rest, trace, hlists, hfirst, hfailed, hnotes⟩)
  · obtain ⟨trace, hfailed, hnotes⟩ := exists_parameters_of_breaksOff ctx hbreaks
    exact .inr (.inl ⟨is, us, trace, hbreaks, hfailed, hnotes⟩)

/-- What the parser of parameters answers can be read off the tokens. A closed list of different
names is read. What breaks off is refused where it does, and a closed list at the first name that
was there before. There is always an answer, and nothing is recorded. -/
structure ChecksParameters (ctx : Context) (pos : Position) : Prop where
  reads : ∀ is after, (∃ trace, parameters ctx pos = .done is trace after) ↔
    ∃ rest, Lists pos.rest is rest ∧ Identifier.Distinct is ∧ after = pos.moveTo rest
  refuses : ∀ why after, (∃ trace, parameters ctx pos = .failed why trace after) ↔
    (∃ is us, BreaksOff pos.rest is us ∧ why = brokenOff ctx us ∧ after = pos.moveTo us) ∨
    ∃ is i rest, Lists pos.rest is rest ∧ Identifier.FirstRepeated is i ∧ why = duplicate i ∧
      after = pos.moveTo rest
  answers : ∀ fault trace after, parameters ctx pos ≠ .fault fault trace after
  silent : (∀ is trace after, parameters ctx pos = .done is trace after → trace.notes = []) ∧
    ∀ why trace after, parameters ctx pos = .failed why trace after → trace.notes = []

theorem checksParameters (ctx : Context) (pos : Position) : ChecksParameters ctx pos where
  reads is after := by
    constructor
    · rintro ⟨trace, hdone⟩
      rcases parameters_cases ctx pos with ⟨js, rest, trace', hlists, hdistinct, h, -⟩ |
        ⟨js, us, trace', -, h, -⟩ | ⟨js, i, rest, trace', -, -, h, -⟩
      · cases hdone.symm.trans h
        exact ⟨rest, hlists, hdistinct, rfl⟩
      · cases hdone.symm.trans h
      · cases hdone.symm.trans h
    · rintro ⟨rest, hlists, hdistinct, rfl⟩
      obtain ⟨trace, hdone, -⟩ := exists_parameters_of_distinct ctx hlists hdistinct
      exact ⟨trace, hdone⟩
  refuses why after := by
    constructor
    · rintro ⟨trace, hfailed⟩
      rcases parameters_cases ctx pos with ⟨js, rest, trace', -, -, h, -⟩ |
        ⟨js, us, trace', hbreaks, h, -⟩ | ⟨js, i, rest, trace', hlists, hfirst, h, -⟩
      · cases hfailed.symm.trans h
      · cases hfailed.symm.trans h
        exact .inl ⟨js, us, hbreaks, rfl, rfl⟩
      · cases hfailed.symm.trans h
        exact .inr ⟨js, i, rest, hlists, hfirst, rfl, rfl⟩
    · rintro (⟨is, us, hbreaks, rfl, rfl⟩ | ⟨is, i, rest, hlists, hfirst, rfl, rfl⟩)
      · obtain ⟨trace, hfailed, -⟩ := exists_parameters_of_breaksOff ctx hbreaks
        exact ⟨trace, hfailed⟩
      · obtain ⟨trace, hfailed, -⟩ := exists_parameters_of_repeated ctx hlists hfirst
        exact ⟨trace, hfailed⟩
  answers fault trace after := by
    intro hfault
    rcases parameters_cases ctx pos with ⟨js, rest, trace', -, -, h, -⟩ |
      ⟨js, us, trace', -, h, -⟩ | ⟨js, i, rest, trace', -, -, h, -⟩
    all_goals cases hfault.symm.trans h
  silent := by
    rcases parameters_cases ctx pos with ⟨js, rest, trace', -, -, h, hnotes⟩ |
      ⟨js, us, trace', -, h, hnotes⟩ | ⟨js, i, rest, trace', -, -, h, hnotes⟩
    · refine ⟨fun is trace after hdone => ?_, fun why trace after hfailed => ?_⟩
      · cases hdone.symm.trans h
        exact hnotes
      · cases hfailed.symm.trans h
    all_goals
      refine ⟨fun is trace after hdone => ?_, fun why trace after hfailed => ?_⟩
      · cases hdone.symm.trans h
      · cases hfailed.symm.trans h
        exact hnotes

end Parse

/-! ## Procedures of programs -/

/-- No procedure of the program has two parameters of one name, and every variadic one has a single
parameter. -/
def Body.ParametersDistinct (p : Program) : Prop :=
  ∀ s variadic params body, Node.expr (.procedure s variadic params body) ∈ p.nodes →
    Identifier.Distinct params ∧ (variadic = true → params.length = 1)

theorem Body.IsBuilt.parametersDistinct {P : Lexeme → Prop} {p : Program} (h : p.IsBuilt P) :
    p.ParametersDistinct := by
  intro s variadic params body hmem
  exact h _ hmem

/-- What is called a procedure is one. -/
theorem Node.exists_of_kind {n : Node} (h : n.kind = "Procedure") :
    ∃ s variadic params body, n = .expr (.procedure s variadic params body) := by
  cases n with
  | expr e =>
      cases e with
      | procedure s variadic params body => exact ⟨s, variadic, params, body, rfl⟩
      | _ => simp [kind] at h
  | definition d => simp [kind] at h
  | identifier i => simp [kind] at h

namespace Session

/-- **Parameters are checked completely.** At every position, what the parser of parameters answers
can be read off the tokens. So all procedures of every program that the parser makes of tokens have
distinct parameters, also when it recovered from failures, and so have those of all programs that a
session returns, whatever its rules are. -/
theorem parameters_are_distinct :
    (∀ ctx pos, Parse.ChecksParameters ctx pos) ∧
    (∀ limit src ts p notes, Body.ofTokens limit src ts = .ok (p, notes) →
      p.ParametersDistinct) ∧
    (∀ (s : Session) src ts p, s.ReturnsFor src ts p → p.ParametersDistinct) ∧
    ∀ (s : Session) src p, s.Returns src p → p.ParametersDistinct := by
  have parsed : ∀ {limit src ts p notes}, Body.ofTokens limit src ts = .ok (p, notes) →
      p.ParametersDistinct := by
    intro limit src ts p notes hp
    have hbuilt : p.IsBuilt fun _ => True := Body.isBuilt_of_ofTokens (fun _ _ => trivial) hp
    exact hbuilt.parametersDistinct
  have returned : ∀ {s : Session} {src ts p}, s.ReturnsFor src ts p → p.ParametersDistinct := by
    intro s src ts p h
    obtain ⟨events, x, notes, -, hp⟩ := h.stages
    exact parsed hp
  refine ⟨Parse.checksParameters, ?_, ?_, ?_⟩
  · intro limit src ts p notes hp
    exact parsed hp
  · intro s src ts p h
    exact returned h
  · intro s src p h
    obtain ⟨l, -, hlexed⟩ := h.lexed
    exact returned hlexed

/-- A name that is repeated before what is no name, one that is repeated in a closed list, and a
program of two procedures, the first of which was refused. -/
theorem parameters_are_distinct_repeated :
    (∃ (i k : Identifier) (o c : Token) (ctx : Context), i.name = k.name ∧ o.opens = true ∧
      c.closes = true ∧
      (∃ trace, Parse.parameters ctx { rest := [i.token, k.token, o] } =
        .failed (Parse.brokenOff ctx [o]) trace { rest := [o] }) ∧
      ∃ trace, Parse.parameters ctx { rest := [i.token, k.token, c] } =
        .failed (Parse.duplicate k) trace { rest := [] }) ∧
    ∃ (p : Program) (s : Span) (variadic : Bool) (params : List Identifier) (body : Body),
      Returns {} ⟨"a.scm", "(lambda (a a) 1)(lambda b b)".toList⟩ p ∧
      Node.expr (.procedure s variadic params body) ∈ p.nodes ∧ Identifier.Distinct params ∧
      (variadic = true → params.length = 1) := by
  obtain ⟨hchecks, -, -, hreturns⟩ := parameters_are_distinct
  constructor
  · obtain ⟨i, hi⟩ : ∃ i : Identifier, i = ⟨"a", Span.point "a.scm" 1⟩ := ⟨_, rfl⟩
    obtain ⟨k, hk⟩ : ∃ k : Identifier, k = ⟨"a", Span.point "a.scm" 2⟩ := ⟨_, rfl⟩
    have hname : i.name = k.name := by rw [hi, hk]
    let o : Token := ⟨.keyword .opening, Span.point "a.scm" 3⟩
    let c : Token := ⟨.keyword .closing, Span.point "a.scm" 3⟩
    let ctx := Context.ofSource 100 ⟨"a.scm", "a a (".toList⟩
    have hbreaks : Token.BreaksOff [i.token, k.token, o] [i, k] [o] := by
      refine ⟨rfl, ?_⟩
      rintro t ⟨⟩
      exact ⟨rfl, rfl⟩
    have hlists : Token.Lists [i.token, k.token, c] [i, k] [] := ⟨c, rfl, rfl⟩
    have hfirst : Identifier.FirstRepeated [i, k] k :=
      ⟨[i], [], rfl, by simp [Identifier.Distinct], by simp [hname]⟩
    refine ⟨i, k, o, c, ctx, hname, rfl, rfl, ?_, ?_⟩
    · exact ((hchecks ctx { rest := [i.token, k.token, o] }).refuses _ _).2
        (.inl ⟨_, _, hbreaks, rfl, rfl⟩)
    · exact ((hchecks ctx { rest := [i.token, k.token, c] }).refuses _ _).2
        (.inr ⟨_, _, _, hlists, hfirst, rfl, rfl⟩)
  · have hseen : ((answer (parseLenient ⟨"a.scm", "(lambda (a a) 1)(lambda b b)".toList⟩)
        {}).toOption.bind Prod.fst).map (fun p => p.nodes.any (·.kind == "Procedure")) =
          some true := by
      decide +kernel
    obtain ⟨p, hp, hany⟩ := Option.map_eq_some_iff.1 hseen
    obtain ⟨n, hmem, hkind⟩ := List.any_eq_true.1 hany
    obtain ⟨s, variadic, params, body, rfl⟩ := Node.exists_of_kind (eq_of_beq hkind)
    have hp : Returns {} ⟨"a.scm", "(lambda (a a) 1)(lambda b b)".toList⟩ p :=
      .inr (exists_answer_of_toOption hp)
    exact ⟨p, s, variadic, params, body, hp, hmem, hreturns _ _ p hp s variadic params body hmem⟩

end Session

end SchemeFront
