import SchemeFront.Proofs.Parse.Nested

set_option autoImplicit false

/-! # What parsers find

What a parser can say about a token depends on where it stands. A `Ground` tells the places that
parsers come to, as a property of the tokens that are left, and what may be found there, as a
property of findings. It is enough to show this for single tokens: then all that is found inside
a form is of that kind (`Parse.finds_nested`). The only other places are those in `front`, behind
a bracket, where a procedure without parameters begins whose own brackets are not written.
-/

namespace SchemeFront

open Token

variable {α β : Type} {ctx : Context} {pos : Position} {C D F : List Token → Prop}
  {N : Diagnostic → Prop} {Q : α → Prop} {R : β → Prop} {n : Nat}

/-! ## Grounds -/

/-- The tokens that are left begin with a procedure without parameters that is not written. `C`
holds behind its parameters, and behind the procedure. -/
structure Token.Unwritten (ctx : Context) (C : List Token → Prop) (ts : List Token) : Prop where
  shape : ∃ opened word left right us, ts = opened :: word :: left :: right :: us ∧
    opened.opens = true ∧ word.lexeme = .keyword .lambda ∧ left.opens = true ∧
    right.closes = true ∧ ctx.written opened = false ∧ C us
  behind : C (ts.drop (extent ts))

/-- The identifier is a token where a parser can be. -/
def Identifier.IsAt (C : List Token → Prop) (i : Identifier) : Prop :=
  ∃ t ts, C (t :: ts) ∧ t.name? = some i.name ∧ t.span = i.span

/-- The places that parsers come to, with the tokens that are left there, and what may be found
there. -/
structure Parse.Ground (ctx : Context) (C F : List Token → Prop) (N : Diagnostic → Prop) :
    Prop where
  plain : ∀ t ts, C (t :: ts) → t.opens = false → C ts
  inside : ∀ t ts, C (t :: ts) → t.opens = true → C ts ∨ F ts
  behind : ∀ ts, C ts → C (ts.drop (extent ts))
  front : ∀ ts, F ts → Unwritten ctx C ts
  /-- Only a written bracket is in front of a procedure that is not written. -/
  written : ∀ t ts, C (t :: ts) → F ts → ctx.written t = true
  within : ∀ d construct, N d → N (d.within construct)
  atEnd : ∀ d, N d → d.atEnd = true → d.span = ctx.endOfInput
  surprise : ∀ pos expected, C pos.rest → endOfInputName ∉ expected →
    N (surprise ctx pos expected)
  /-- A list of parameters, or a header, may have become something else. -/
  header : ∀ p k o pos expected, C (p :: k :: o :: pos.rest) → p.opens = true →
    k.lexeme = .keyword .lambda ∨ k.lexeme = .keyword .define → o.opens = true → F pos.rest →
    endOfInputName ∉ expected → N (Parse.surprise ctx pos expected)
  tooDeep : ∀ t ts construct, C (t :: ts) → t.opens = true →
    N (Diagnostic.tooDeep ctx.limit t.span construct)
  duplicate : ∀ i, i.IsAt C → N (Parse.duplicate i)
  misplaced : ∀ t ts, C (t :: ts) → t.lexeme = .keyword .define → N (Parse.misplaced t.span)
  late : ∀ o ts c us, C (o :: ts) → o.opens = true → C (c :: us) → c.closes = true →
    N (Parse.late (o.span.join c.span))

/-! ## Answers -/

/-- The answer to reading on from `pos`: all findings are of the kind `N`, a failure too, and one
is where `C` holds of the tokens that are left. -/
def Reply.Finds (N : Diagnostic → Prop) (C : List Token → Prop) (pos : Position) (Q : α → Prop) :
    Reply α → Prop
  | done a trace after => (∀ m ∈ trace.notes, N m) ∧
      (∃ rest, after = pos.moveTo rest ∧ rest <:+ pos.rest ∧ C rest) ∧ Q a
  | failed why trace _ => (∀ m ∈ trace.notes, N m) ∧ N why
  | fault _ _ _ => True

namespace Reply.Finds

variable {r : Reply α}

theorem mono {Q' : α → Prop} (h : r.Finds N C pos Q) (hC : ∀ ts, C ts → D ts)
    (hQ : ∀ a, Q a → Q' a) : r.Finds N D pos Q' := by
  cases r with
  | done a trace after =>
      obtain ⟨hnotes, ⟨rest, hafter, hsuffix, hrest⟩, ha⟩ := h
      exact ⟨hnotes, ⟨rest, hafter, hsuffix, hC rest hrest⟩, hQ a ha⟩
  | failed why trace after => exact h
  | fault fault => trivial

/-- The answer to reading on from where one had come to. -/
theorem behind {rest : List Token} {trace : Trace} (hsuffix : rest <:+ pos.rest)
    (htrace : ∀ m ∈ trace.notes, N m) (h : r.Finds N C (pos.moveTo rest) Q) :
    (r.behind trace).Finds N C pos Q := by
  cases r with
  | done a more after =>
      obtain ⟨hmore, ⟨us, hafter, hus, hC⟩, ha⟩ := h
      refine ⟨?_, ⟨us, hafter, hus.trans hsuffix, hC⟩, ha⟩
      intro m hm
      exact (List.mem_append.1 hm).elim (htrace m) (hmore m)
  | failed why more after =>
      refine ⟨?_, h.2⟩
      intro m hm
      exact (List.mem_append.1 hm).elim (htrace m) (h.1 m)
  | fault fault => trivial

end Reply.Finds

namespace Parse

variable {p : Parse α} {g : α → Parse β}

/-- Parsers one after the other. -/
theorem finds_bind (hp : (p ctx pos).Finds N C pos Q)
    (hg : ∀ a rest, rest <:+ pos.rest → C rest → Q a →
      (g a ctx (pos.moveTo rest)).Finds N D (pos.moveTo rest) R) :
    ((p >>= g) ctx pos).Finds N D pos R := by
  rw [bind_apply]
  cases hr : p ctx pos with
  | done a trace after =>
      rw [hr] at hp
      obtain ⟨hnotes, ⟨rest, rfl, hsuffix, hC⟩, ha⟩ := hp
      exact (hg a rest hsuffix hC ha).behind hsuffix hnotes
  | failed why trace after =>
      rw [hr] at hp
      exact hp
  | fault fault => trivial

theorem finds_pure {a : α} (hC : C pos.rest) (ha : Q a) :
    ((pure a : Parse α) ctx pos).Finds N C pos Q :=
  ⟨by simp, ⟨pos.rest, rfl, List.suffix_refl _, hC⟩, ha⟩

theorem finds_map {f : α → β} (hp : (p ctx pos).Finds N C pos fun a => R (f a)) :
    ((f <$> p) ctx pos).Finds N C pos R := by
  rw [← bind_pure_comp]
  exact finds_bind hp fun a rest _ hC ha => finds_pure hC ha

theorem finds_reject {why : Diagnostic} (hwhy : N why) :
    ((reject why : Parse α) ctx pos).Finds N C pos Q :=
  ⟨by simp, hwhy⟩

theorem finds_fail {expected : List String} (h : N (surprise ctx pos expected)) :
    ((fail expected : Parse α) ctx pos).Finds N C pos Q :=
  ⟨by simp, h⟩

theorem finds_advance {Q : Token → Prop} {t : Token} {ts : List Token} (hrest : pos.rest = t :: ts)
    (hC : C ts) (hQ : Q t) : (advance ctx pos).Finds N C pos Q := by
  simp only [advance, hrest]
  exact ⟨by simp, ⟨ts, rfl, by simp [hrest], hC⟩, hQ⟩

end Parse

/-! ## Names -/

namespace Parse

theorem mem_of_repeated? {seen : List String} {is : List Identifier} {i : Identifier}
    (h : repeated? seen is = some i) : i ∈ is := by
  induction is generalizing seen with
  | nil => cases h
  | cons j is ih =>
      rw [repeated?] at h
      split at h
      · cases h
        exact List.mem_cons_self
      · exact List.mem_cons_of_mem j (ih h)

variable (G : Ground ctx C F N)

include G

theorem finds_close (hC : C pos.rest) : (close ctx pos).Finds N C pos fun c =>
    c.closes = true ∧ ∃ ts, C (c :: ts) := by
  rw [close, nextCloses_bind_apply]
  split
  · rename_i hcloses
    obtain ⟨c, rest, hrest, hc⟩ := nextCloses_eq_true hcloses
    rw [hrest] at hC
    exact finds_advance hrest (G.plain c rest hC (opens_eq_false_of_closes hc)) ⟨hc, rest, hC⟩
  · exact finds_fail (G.surprise pos _ hC (by decide))

/-- The last step inside a form: its closing bracket. -/
theorem finds_closed {f : Token → β} (hC : C pos.rest)
    (hf : ∀ c ts, C (c :: ts) → c.closes = true → R (f c)) :
    ((do let closed ← close; return f closed : Parse β) ctx pos).Finds N C pos R := by
  refine finds_bind (finds_close G hC) ?_
  rintro c rest - hC ⟨hc, ts, hts⟩
  exact finds_pure hC (hf c ts hts hc)

theorem finds_identifier (hC : C pos.rest) {also : List String} (halso : endOfInputName ∉ also) :
    (identifier also ctx pos).Finds N C pos (Identifier.IsAt C) := by
  have hexpected : endOfInputName ∉ identifierName :: also := by
    simpa [identifierName, endOfInputName] using halso
  rw [identifier, peek_bind_apply]
  cases hrest : pos.rest with
  | nil => exact finds_fail (G.surprise pos _ hC hexpected)
  | cons t rest =>
      simp only [List.getElem?_cons_zero, Option.bind_some]
      cases hname : t.name? with
      | none => exact finds_fail (G.surprise pos _ hC hexpected)
      | some name =>
          rw [hrest] at hC
          refine finds_bind (finds_advance (Q := (· = t)) hrest
            (G.plain t rest hC (name?_eq_some hname).1) rfl) ?_
          rintro u us - hus rfl
          exact finds_pure hus ⟨u, rest, hC, hname, rfl⟩

theorem finds_identifiers (hC : C pos.rest) (rounds : Nat) :
    (identifiers rounds ctx pos).Finds N C pos fun is => ∀ i ∈ is, i.IsAt C := by
  induction rounds generalizing pos with
  | zero => trivial
  | succ rounds ih =>
      rw [identifiers, nextCloses_bind_apply]
      split
      · rename_i hcloses
        obtain ⟨c, rest, hrest, hc⟩ := nextCloses_eq_true hcloses
        rw [hrest] at hC
        refine finds_bind (finds_advance (Q := fun _ => True) hrest
          (G.plain c rest hC (opens_eq_false_of_closes hc)) trivial) ?_
        intro _ us _ hus _
        exact finds_pure hus (by simp)
      · refine finds_bind (finds_identifier G hC (by decide)) ?_
        intro first us _ hus hfirst
        refine finds_bind (ih hus) ?_
        intro more vs _ hvs hmore
        exact finds_pure hvs (by simpa using ⟨hfirst, hmore⟩)

theorem finds_parameters (hC : C pos.rest) :
    (parameters ctx pos).Finds N C pos fun _ => True := by
  rw [parameters]
  refine finds_bind (finds_identifiers G hC _) ?_
  intro params rest _ hrest hparams
  rw [distinct]
  cases hrep : repeated? [] params with
  | none => exact finds_pure hrest trivial
  | some i => exact finds_reject (G.duplicate i (hparams i (mem_of_repeated? hrep)))

omit G in
/-- Where no parameters are, nothing is found. -/
theorem finds_parameters_of_closes {c : Token} {ts : List Token} (hrest : pos.rest = c :: ts)
    (hc : c.closes = true) (hC : C ts) : (parameters ctx pos).Finds N C pos fun _ => True := by
  have hcloses : pos.rest[0]?.any Token.closes = true := by simpa [hrest] using hc
  have hidentifiers : (withRounds identifiers ctx pos).Finds N C pos (· = []) := by
    show (identifiers (pos.rest.length + 1) ctx pos).Finds N C pos _
    rw [identifiers, nextCloses_bind_apply, if_pos hcloses]
    refine finds_bind (finds_advance (Q := fun _ => True) hrest hC trivial) ?_
    intro _ us _ hus _
    exact finds_pure hus rfl
  rw [parameters]
  refine finds_bind hidentifiers ?_
  rintro params us - hus rfl
  exact finds_pure hus trivial

/-- Where a procedure that is not written begins, there is no name. -/
theorem finds_identifier_of_front {p k o : Token} (hC : C (p :: k :: o :: pos.rest))
    (hp : p.opens = true) (hk : k.lexeme = .keyword .lambda ∨ k.lexeme = .keyword .define)
    (ho : o.opens = true) (hF : F pos.rest) {also : List String} (halso : endOfInputName ∉ also) :
    (identifier also ctx pos).Finds N C pos fun _ => False := by
  obtain ⟨opened, word, left, right, us, hrest, hopened, -⟩ := (G.front _ hF).shape
  have hnext : pos.rest[0]? = some opened := by simp [hrest]
  have hname := name?_eq_none_of_opens hopened
  have hexpected : endOfInputName ∉ identifierName :: also := by
    simpa [identifierName, endOfInputName] using halso
  rw [identifier, peek_bind_apply, hnext, Option.bind_some, hname]
  exact finds_fail (G.header p k o pos _ hC hp hk ho hF hexpected)

theorem finds_parameters_of_front {p k o : Token} (hC : C (p :: k :: o :: pos.rest))
    (hp : p.opens = true) (hk : k.lexeme = .keyword .lambda ∨ k.lexeme = .keyword .define)
    (ho : o.opens = true) (hF : F pos.rest) :
    (parameters ctx pos).Finds N C pos fun _ => False := by
  obtain ⟨opened, word, left, right, us, hrest, hopened, -⟩ := (G.front _ hF).shape
  have hcloses : ¬ pos.rest[0]?.any Token.closes = true := by
    simp [hrest, closes_eq_false_of_opens hopened]
  have hidentifiers : (withRounds identifiers ctx pos).Finds N C pos fun _ => False := by
    show (identifiers (pos.rest.length + 1) ctx pos).Finds N C pos _
    rw [identifiers, nextCloses_bind_apply, if_neg hcloses]
    exact finds_bind (finds_identifier_of_front G hC hp hk ho hF (by decide))
      fun _ _ _ _ h => h.elim
  rw [parameters]
  exact finds_bind hidentifiers fun _ _ _ _ h => h.elim

/-- The parameters behind the word `lambda`. -/
theorem finds_formals (pos : Position) {p k : Token} (hC : C (p :: k :: pos.rest))
    (hp : p.opens = true)
    (hk : k.lexeme = .keyword .lambda) (hrest : C pos.rest) :
    (formals ctx pos).Finds N C pos fun _ => True := by
  rw [formals, peek_bind_apply]
  cases hcons : pos.rest with
  | nil => exact finds_fail (G.surprise pos _ hrest (by decide))
  | cons t ts =>
      simp only [List.getElem?_cons_zero]
      split
      · refine finds_bind (finds_identifier G hrest (by decide)) ?_
        intro _ us _ hus _
        exact finds_pure hus trivial
      · split
        · rename_i ho
          rw [hcons] at hC hrest
          refine finds_bind (finds_advance (C := (· = ts)) (Q := fun _ => True) hcons rfl
            trivial) ?_
          rintro _ us - rfl -
          have hparams : (parameters ctx (pos.moveTo us)).Finds N C (pos.moveTo us)
              fun _ => True := by
            rcases G.inside t us hrest ho with hus | hF
            · exact finds_parameters G hus
            · exact (finds_parameters_of_front G hC hp (.inl hk) ho hF).mono (fun _ h => h)
                fun _ _ => trivial
          refine finds_bind hparams ?_
          intro _ vs _ hvs _
          exact finds_pure hvs trivial
        · exact finds_fail (G.surprise pos _ hrest (by decide))

end Parse

/-! ## Forms -/

/-- What is said in an answer: `D` of a value and the findings, `E` of a failure and those before
it. -/
def Reply.Tells (D : α → List Diagnostic → Prop) (E : Diagnostic → List Diagnostic → Prop) :
    Reply α → Prop
  | done a trace _ => D a trace.notes
  | failed why trace _ => E why trace.notes
  | fault _ _ _ => True

namespace Reply.Tells

variable {V W : α → List Diagnostic → Prop} {E E' : Diagnostic → List Diagnostic → Prop}
  {r : Reply α}

theorem mono (h : r.Tells V E) (hW : ∀ a notes, V a notes → W a notes)
    (hE : ∀ why notes, E why notes → E' why notes) : r.Tells W E' := by
  cases r with
  | done a trace after => exact hW a _ h
  | failed why trace after => exact hE why _ h
  | fault fault => trivial

theorem behind {trace : Trace} (h : r.Tells (fun a notes => W a (trace.notes ++ notes))
    fun why notes => E why (trace.notes ++ notes)) : (r.behind trace).Tells W E := by
  cases r <;> exact h

theorem leaving (h : r.Tells W E) (counted : Bool) : (r.leaving counted).Tells W E := by
  cases r with
  | done a trace after =>
      show W a (trace.notes ++ [])
      rwa [List.append_nil]
  | failed why trace after =>
      show E why (trace.notes ++ [])
      rwa [List.append_nil]
  | fault fault => trivial

end Reply.Tells

/-- What is recorded of a form that was not parsed: that it is nested too deeply, or a failure
inside it that has not passed its boundary. -/
def Parse.Recorded (ctx : Context) (pos : Position) (opened : Token) (construct : String)
    (E : Diagnostic → List Diagnostic → Prop) (notes : List Diagnostic) : Prop :=
  ctx.counts pos opened = true ∧ notes = [Diagnostic.tooDeep ctx.limit opened.span construct] ∨
  ∃ why before, E why before ∧ (why.atEnd = true → pos.forms = []) ∧
    notes = before ++ [explain opened construct why]

namespace Parse

variable {opened : Token} {tail : List Token} {construct : String} {inner : Token → Parse α}
  {E : Diagnostic → List Diagnostic → Prop} {W : α → List Diagnostic → Prop}

/-- Recovery says what it is told, and nothing else. -/
theorem tells_recover (start : List Token) (d : Diagnostic) :
    ((recover start d : Parse (Parsed α)) ctx pos).Tells
      (fun p notes => (∃ s, p = .broken s) ∧ notes = [d]) fun _ _ => False := by
  simp only [recover, bind_apply, note, skip]
  generalize max (extent start) (start.length - pos.rest.length) = count
  cases cover (start.take count) ctx.endOfInput with
  | error fault => trivial
  | ok span => exact ⟨⟨span, rfl⟩, rfl⟩

/-- A form is parsed with the findings that were made inside, or one more is recorded. -/
theorem tells_form (construct : String) (hrest : pos.rest = opened :: tail)
    (hinner : (inner opened ctx (pos.enter (ctx.counts pos opened) tail)).Tells W E) :
    (form construct inner ctx pos).Tells
      (fun p notes => (∃ a, p = .whole a ∧ W a notes) ∨
        (∃ s, p = .broken s) ∧ Recorded ctx pos opened construct E notes)
      (fun why notes => E why notes ∧ why.atEnd = true ∧ pos.forms ≠ []) := by
  unfold form
  rw [hrest]
  dsimp only
  split
  · rename_i hdeep
    rw [Bool.and_eq_true] at hdeep
    refine (tells_recover (opened :: tail) _).mono ?_ (fun _ _ h => h.elim)
    rintro p notes ⟨hp, rfl⟩
    exact .inr ⟨hp, .inl ⟨hdeep.1, rfl⟩⟩
  · refine (Reply.Tells.behind ?_).leaving _
    unfold guarded
    cases hr : inner opened ctx (pos.enter (ctx.counts pos opened) tail) with
    | done a trace after =>
        rw [hr] at hinner
        exact .inl ⟨a, rfl, hinner⟩
    | failed why trace after =>
        rw [hr] at hinner
        dsimp only
        split
        · rename_i hpass
          simp only [Bool.and_eq_true, Bool.not_eq_true', List.isEmpty_eq_false_iff] at hpass
          exact ⟨hinner, hpass⟩
        · rename_i hstop
          have hend : why.atEnd = true → pos.forms = [] := by
            intro hend
            simpa [hend] using hstop
          refine Reply.Tells.behind ((tells_recover pos.rest _).mono ?_ (fun _ _ h => h.elim))
          rintro p notes ⟨hp, rfl⟩
          exact .inr ⟨hp, .inr ⟨why, trace.notes, hinner, hend, rfl⟩⟩
    | fault fault => trivial

end Parse

/-! ## Inside forms -/

/-- An expression can begin here: behind a bracket that counts, it may be a procedure that is not
written. -/
def Position.IsOpen (C F : List Token → Prop) (pos : Position) : Prop :=
  C pos.rest ∨ F pos.rest ∧ pos.forms.headD false = true

/-- The parsers for what is inside brackets find only what there is on the ground, where fewer than
`n` tokens are left. -/
structure Inner.Finds (ctx : Context) (C F : List Token → Prop) (N : Diagnostic → Prop) (n : Nat)
    (inner : Inner) : Prop where
  tidy : inner.Tidy (fun _ => True) ctx n
  expr : ∀ also pos, endOfInputName ∉ also → pos.forms ≠ [] →
    Supply (fun _ => True) n pos.rest → pos.IsOpen C F →
    (inner.expr also ctx pos).Finds N C pos fun _ => True
  body : ∀ pos, pos.forms ≠ [] → Supply (fun _ => True) n pos.rest → C pos.rest →
    (inner.body ctx pos).Finds N C pos fun _ => True

theorem Reply.Finds.tells {r : Reply α} (h : r.Finds N C pos Q) :
    r.Tells (fun a notes => (∀ m ∈ notes, N m) ∧ Q a)
      (fun why notes => (∀ m ∈ notes, N m) ∧ N why) := by
  cases r with
  | done a trace after => exact ⟨h.1, h.2.2⟩
  | failed why trace after => exact h
  | fault fault => trivial

namespace Parse

variable {inner : Inner} {opened : Token}

variable (G : Ground ctx C F N)

include G

/-- What is behind a bracket is open to an expression. -/
theorem isOpen_enter {tail : List Token} (hC : C (opened :: tail)) (ho : opened.opens = true) :
    (pos.enter (ctx.counts pos opened) tail).IsOpen C F := by
  rcases G.inside opened tail hC ho with htail | htail
  · exact .inl htail
  · refine .inr ⟨htail, ?_⟩
    show ctx.counts pos opened = true
    rw [Context.counts, G.written opened tail hC htail, Bool.true_or]

/-- A form inside another one: `Q` holds of what is parsed. -/
theorem finds_form {P : Lexeme → Prop} {S : α → Prop} {tail : List Token} {construct : String}
    {inner : Token → Parse α} (hforms : pos.forms ≠ []) (hrest : pos.rest = opened :: tail)
    (hlands : (form construct inner ctx pos).Lands P pos S)
    (hbehind : C (pos.rest.drop (extent pos.rest)))
    (hdeep : ctx.counts pos opened = true → N (Diagnostic.tooDeep ctx.limit opened.span construct))
    (hinner : (inner opened ctx (pos.enter (ctx.counts pos opened) tail)).Finds N C
      (pos.enter (ctx.counts pos opened) tail) Q) :
    (form construct inner ctx pos).Finds N C pos (Parsed.Holds Q) := by
  have htells := tells_form construct hrest hinner.tells
  cases hr : form construct inner ctx pos with
  | done p trace after =>
      rw [hr] at hlands htells
      obtain ⟨rfl, -⟩ := hlands
      refine ⟨?_, ⟨_, rfl, List.drop_suffix _ _, hbehind⟩, ?_⟩
      · rcases htells with ⟨a, -, hnotes, -⟩ | ⟨-, ⟨hcounts, hnotes⟩ |
          ⟨why, before, ⟨hbefore, hwhy⟩, hend, hnotes⟩⟩
        · exact hnotes
        · intro m hm
          rw [hnotes, List.mem_singleton] at hm
          rw [hm]
          exact hdeep hcounts
        · intro m hm
          rw [hnotes] at hm
          rcases List.mem_append.1 hm with hm | hm
          · exact hbefore m hm
          · rw [List.mem_singleton.1 hm, explain, if_neg fun h => hforms (hend h)]
            exact G.within why construct hwhy
      · rcases htells with ⟨a, rfl, -, ha⟩ | ⟨⟨s, rfl⟩, -⟩
        · exact ha
        · trivial
  | failed why trace after =>
      rw [hr] at htells
      exact htells.1
  | fault fault => trivial

/-- The word that begins a form is read. -/
theorem finds_advance_word {k : Keyword} (hC : C pos.rest)
    (hhead : pos.rest[0]?.map Token.lexeme = some (.keyword k)) (hk : k ≠ .opening) :
    (advance ctx pos).Finds N C pos fun _ => True := by
  cases hrest : pos.rest with
  | nil => simp [hrest] at hhead
  | cons t ts =>
      simp only [hrest, List.getElem?_cons_zero, Option.map_some, Option.some.injEq] at hhead
      rw [hrest] at hC
      have ho : t.opens = false := by simp [Token.opens, Token.isKeyword, hhead, hk]
      exact finds_advance hrest (G.plain t ts hC ho) trivial

omit G in
theorem finds_alternative (h : inner.Finds ctx C F N n) (hforms : pos.forms ≠ [])
    (hs : Supply (fun _ => True) n pos.rest) (hC : C pos.rest) :
    (alternative inner ctx pos).Finds N C pos fun _ => True := by
  rw [alternative, nextCloses_bind_apply]
  split
  · exact finds_pure hC trivial
  · exact finds_map (h.expr _ pos (by decide) hforms hs (.inl hC))

theorem finds_conditional (h : inner.Finds ctx C F N n) (hforms : pos.forms ≠ [])
    (hs : Supply (fun _ => True) n pos.rest) (hC : C pos.rest)
    (hhead : pos.rest[0]?.map Token.lexeme = some (.keyword .conditional)) :
    (conditional inner opened ctx pos).Finds N C pos fun _ => True := by
  rw [conditional]
  refine finds_bind (finds_advance_word G hC hhead (by decide)) ?_
  intro _ us hus hC _
  have hs := hs.of_suffix hus
  refine finds_bind (h.expr [] (pos.moveTo us) (by simp) hforms hs (.inl hC)) ?_
  intro _ vs hvs hC _
  have hs := hs.of_suffix hvs
  refine finds_bind (h.expr [] (pos.moveTo vs) (by simp) hforms hs (.inl hC)) ?_
  intro _ ws hws hC _
  have hs := hs.of_suffix hws
  refine finds_bind (finds_alternative h hforms hs hC) ?_
  intro _ _ _ hC _
  exact finds_closed G hC fun _ _ _ _ => trivial

/-- A procedure, from what its parameters are. -/
theorem finds_procedure (h : inner.Finds ctx C F N n) (hforms : pos.forms ≠ [])
    (hs : Supply (fun _ => True) n pos.rest) {word : Token} {ts : List Token}
    (hrest : pos.rest = word :: ts)
    (hformals : (formals ctx (pos.moveTo ts)).Finds N C (pos.moveTo ts) fun _ => True) :
    (procedure inner opened ctx pos).Finds N C pos fun _ => True := by
  rw [procedure]
  refine finds_bind (finds_advance (C := (· = ts)) (Q := fun _ => True) hrest rfl trivial) ?_
  rintro _ us hus rfl -
  have hs := hs.of_suffix hus
  refine finds_bind hformals ?_
  intro _ vs hvs hC _
  have hs := hs.of_suffix hvs
  refine finds_bind (h.body (pos.moveTo vs) hforms hs hC) ?_
  intro _ _ _ hC _
  exact finds_closed G hC fun _ _ _ _ => trivial

theorem finds_assignment (h : inner.Finds ctx C F N n) (hforms : pos.forms ≠ [])
    (hs : Supply (fun _ => True) n pos.rest) (hC : C pos.rest)
    (hhead : pos.rest[0]?.map Token.lexeme = some (.keyword .assign)) :
    (assignment inner opened ctx pos).Finds N C pos fun _ => True := by
  rw [assignment]
  refine finds_bind (finds_advance_word G hC hhead (by decide)) ?_
  intro _ us hus hC _
  have hs := hs.of_suffix hus
  refine finds_bind (finds_identifier G hC (by simp)) ?_
  intro _ vs hvs hC _
  have hs := hs.of_suffix hvs
  refine finds_bind (h.expr [] (pos.moveTo vs) (by simp) hforms hs (.inl hC)) ?_
  intro _ _ _ hC _
  exact finds_closed G hC fun _ _ _ _ => trivial

omit G in
theorem finds_arguments (pos : Position) (h : inner.Finds ctx C F N n) (hforms : pos.forms ≠ [])
    (hs : Supply (fun _ => True) n pos.rest) (hC : C pos.rest) (rounds : Nat) :
    (arguments inner rounds ctx pos).Finds N C pos fun _ => True := by
  induction rounds generalizing pos with
  | zero => trivial
  | succ rounds ih =>
      rw [arguments, nextCloses_bind_apply]
      split
      · exact finds_pure hC trivial
      · refine finds_bind (h.expr _ pos (by decide) hforms hs (.inl hC)) ?_
        intro _ us hus hC _
        refine finds_bind (ih (pos.moveTo us) hforms (hs.of_suffix hus) hC) ?_
        intro _ _ _ hC _
        exact finds_pure hC trivial

theorem finds_call (h : inner.Finds ctx C F N n) (hforms : pos.forms ≠ [])
    (hs : Supply (fun _ => True) n pos.rest) (hopen : pos.IsOpen C F) :
    (call inner opened ctx pos).Finds N C pos fun _ => True := by
  rw [call]
  refine finds_bind (h.expr [] pos (by simp) hforms hs hopen) ?_
  intro _ us hus hC _
  have hs := hs.of_suffix hus
  refine finds_bind (finds_arguments (pos.moveTo us) h hforms hs hC _) ?_
  intro _ _ _ hC _
  exact finds_closed G hC fun _ _ _ _ => trivial

/-- Before a word nothing is unwritten. -/
theorem holds_of_isOpen (pos : Position) {k : Keyword} (hopen : pos.IsOpen C F)
    (hhead : pos.rest[0]?.map Token.lexeme = some (.keyword k)) (hk : k ≠ .opening) :
    C pos.rest := by
  rcases hopen with hC | ⟨hF, -⟩
  · exact hC
  · obtain ⟨t, word, left, right, us, hrest, ht, -⟩ := (G.front _ hF).shape
    simp only [hrest, List.getElem?_cons_zero, Option.map_some, Option.some.injEq] at hhead
    simp [Token.opens, Token.isKeyword, hhead, hk] at ht

/-- Whatever follows a written bracket, what is found in the form is of the kind. -/
theorem finds_formOf (pos : Position) (h : inner.Finds ctx C F N n) (hforms : pos.forms ≠ [])
    (hs : Supply (fun _ => True) n pos.rest) (ho : opened.opens = true)
    (hC : C (opened :: pos.rest)) (hopen : pos.IsOpen C F) :
    ((formOf inner pos.rest[0]?).2 opened ctx pos).Finds N C pos fun _ => True := by
  unfold formOf
  split
  · rename_i hhead
    exact finds_conditional G h hforms hs (holds_of_isOpen G pos hopen hhead (by decide)) hhead
  · rename_i hhead
    have hrest := holds_of_isOpen G pos hopen hhead (by decide)
    cases hcons : pos.rest with
    | nil => simp [hcons] at hhead
    | cons word ts =>
        simp only [hcons, List.getElem?_cons_zero, Option.map_some, Option.some.injEq] at hhead
        rw [hcons] at hC hrest
        have hts : C ts := G.plain word ts hrest (by simp [Token.opens, Token.isKeyword, hhead])
        exact finds_procedure G h hforms hs hcons (finds_formals G (pos.moveTo ts) hC ho
          hhead hts)
  · rename_i hhead
    exact finds_assignment G h hforms hs (holds_of_isOpen G pos hopen hhead (by decide)) hhead
  · rename_i hhead
    have hrest := holds_of_isOpen G pos hopen hhead (by decide)
    show (strayDefinition opened ctx pos).Finds N C pos _
    rw [strayDefinition, peek_bind_apply]
    cases hcons : pos.rest with
    | nil => simp [hcons] at hhead
    | cons word ts =>
        simp only [hcons, List.getElem?_cons_zero, Option.map_some, Option.some.injEq] at hhead
        rw [hcons] at hrest
        exact finds_reject (G.misplaced word ts hrest hhead)
  · exact finds_call G h hforms hs hopen

/-- Inside a form in the place of an expression. -/
theorem finds_formOf_inside (h : inner.Finds ctx C F N n)
    (hs : Supply (fun _ => True) (n + 1) pos.rest) {tail : List Token}
    (hrest : pos.rest = opened :: tail) (ho : opened.opens = true) (hopen : pos.IsOpen C F) :
    ((formOf inner tail[0]?).2 opened ctx (pos.enter (ctx.counts pos opened) tail)).Finds N C
      (pos.enter (ctx.counts pos opened) tail) fun _ => True := by
  have hforms : (pos.enter (ctx.counts pos opened) tail).forms ≠ [] := List.cons_ne_nil _ _
  have hstail : Supply (fun _ => True) n tail := hs.tail hrest
  rcases hopen with hC | ⟨hF, -⟩
  · rw [hrest] at hC
    exact finds_formOf G (pos.enter (ctx.counts pos opened) tail) h hforms hstail ho hC
      (isOpen_enter G hC ho)
  · -- The procedure that is not written: nothing is found before its body.
    obtain ⟨t, word, left, right, us, hcons, -, hword, hleft, hright, -, hus⟩ :=
      (G.front _ hF).shape
    rw [hrest] at hcons
    cases hcons
    have hform : (formOf inner (word :: left :: right :: us)[0]?).2 = procedure inner := by
      simp [formOf, hword]
    have hname := name?_eq_none_of_opens hleft
    rw [hform]
    refine finds_procedure G h hforms hstail rfl ?_
    rw [formals, peek_bind_apply]
    simp only [Position.moveTo_rest, List.getElem?_cons_zero, hname, Option.isSome_none,
      Bool.false_eq_true, if_false, hleft, if_true]
    refine finds_bind (finds_advance (C := (· = right :: us)) (Q := fun _ => True) rfl rfl
      trivial) ?_
    rintro _ vs - rfl -
    refine finds_bind (finds_parameters_of_closes rfl hright hus) ?_
    intro _ ws _ hws _
    exact finds_pure hws trivial

/-- What a form in the place of an expression may be said to be too deep for. -/
theorem tooDeep_of_isOpen {tail : List Token} (hrest : pos.rest = opened :: tail)
    (ho : opened.opens = true) (hopen : pos.IsOpen C F) (construct : String)
    (hcounts : ctx.counts pos opened = true) :
    N (Diagnostic.tooDeep ctx.limit opened.span construct) := by
  rcases hopen with hC | ⟨hF, hhead⟩
  · rw [hrest] at hC
    exact G.tooDeep opened tail construct hC ho
  · obtain ⟨t, word, left, right, us, hcons, -, -, -, -, hwritten, -⟩ := (G.front _ hF).shape
    rw [hrest] at hcons
    cases hcons
    rw [Context.counts, hwritten, hhead] at hcounts
    cases hcounts

theorem behind_of_isOpen (hopen : pos.IsOpen C F) : C (pos.rest.drop (extent pos.rest)) := by
  rcases hopen with hC | ⟨hF, -⟩
  · exact G.behind _ hC
  · exact (G.front _ hF).behind

theorem finds_expression (h : inner.Finds ctx C F N n) (hforms : pos.forms ≠ [])
    (hs : Supply (fun _ => True) (n + 1) pos.rest) (hopen : pos.IsOpen C F) {also : List String}
    (halso : endOfInputName ∉ also) :
    (expression inner also ctx pos).Finds N C pos fun _ => True := by
  have hexpected : endOfInputName ∉ expressionName :: also := by
    simpa [expressionName, endOfInputName] using halso
  -- Only a bracket can begin what is not written.
  have hplain : ∀ t, pos.rest[0]? = some t → t.opens = false → C pos.rest := by
    intro t ht hto
    rcases hopen with hC | ⟨hF, -⟩
    · exact hC
    · obtain ⟨u, word, left, right, us, hcons, hu, -⟩ := (G.front _ hF).shape
      simp only [hcons, List.getElem?_cons_zero, Option.some.injEq] at ht
      rw [ht, hto] at hu
      cases hu
  rw [expression, peek_bind_apply]
  cases hrest : pos.rest with
  | nil =>
      refine finds_fail (G.surprise pos _ ?_ hexpected)
      rcases hopen with hC | ⟨hF, -⟩
      · exact hC
      · obtain ⟨u, word, left, right, us, hcons, -⟩ := (G.front _ hF).shape
        rw [hrest] at hcons
        cases hcons
  | cons t ts =>
      have hnext : pos.rest[0]? = some t := by simp [hrest]
      obtain ⟨l, s⟩ := t
      cases l with
      | atom a =>
          have hC := hplain _ hnext rfl
          rw [hrest] at hC
          refine finds_bind (finds_advance (Q := fun _ => True) hrest (G.plain _ ts hC rfl)
            trivial) ?_
          intro _ us _ hus _
          exact finds_pure hus trivial
      | keyword k =>
          cases k with
          | opening =>
              show (compound inner ctx pos).Finds N C pos _
              have hhead : pos.rest[1]? = ts[0]? := by simp [hrest]
              have hlands := form_formOf_lands h.tidy hs hrest rfl
              rw [compound, peek_bind_apply]
              rw [hhead] at hlands ⊢
              exact finds_map ((finds_form G hforms hrest hlands (behind_of_isOpen G hopen)
                (tooDeep_of_isOpen G hrest rfl hopen _)
                (finds_formOf_inside G h hs hrest rfl hopen)).mono (fun _ h => h)
                fun _ _ => trivial)
          | _ => exact finds_fail (G.surprise pos _ (hplain _ hnext rfl) hexpected)

/-! ## Definitions -/

theorem finds_namedValue (h : inner.Finds ctx C F N n) (hforms : pos.forms ≠ [])
    (hs : Supply (fun _ => True) n pos.rest) (hC : C pos.rest) {tail : List Token}
    (hopened : C (opened :: tail)) (ho : opened.opens = true) :
    (namedValue inner opened ctx pos).Finds N C pos fun d => N (late d.span) := by
  rw [namedValue]
  refine finds_bind (finds_identifier G hC (by simp)) ?_
  intro name us hus hC _
  have hs := hs.of_suffix hus
  refine finds_bind (h.expr [] (pos.moveTo us) (by simp) hforms hs (.inl hC)) ?_
  intro value _ _ hC _
  exact finds_closed G hC fun c ts hc hcloses => G.late opened tail c ts hopened ho hc hcloses

/-- The header behind the word `define`: its name, and its parameters. -/
theorem finds_namedProcedure (h : inner.Finds ctx C F N n) (hforms : pos.forms ≠ [])
    (hs : Supply (fun _ => True) n pos.rest) {word o : Token} {ts : List Token}
    (hrest : pos.rest = o :: ts) (hC : C pos.rest) (hopened : C (opened :: word :: pos.rest))
    (ho : opened.opens = true) (hword : word.lexeme = .keyword .define) (hto : o.opens = true) :
    (namedProcedure inner opened ctx pos).Finds N C pos fun d => N (late d.span) := by
  rw [namedProcedure]
  refine finds_bind (finds_advance (C := (· = ts)) (Q := fun _ => True) hrest rfl trivial) ?_
  rintro _ us hus rfl -
  have hs := hs.of_suffix hus
  rw [hrest] at hC hopened
  rcases G.inside o us hC hto with hC | hF
  · refine finds_bind (finds_identifier G hC (by simp)) ?_
    intro name vs hvs hC _
    have hs := hs.of_suffix hvs
    refine finds_bind (finds_parameters G hC) ?_
    intro params ws hws hC _
    have hs := hs.of_suffix hws
    refine finds_bind (h.body (pos.moveTo ws) hforms hs hC) ?_
    intro body _ _ hC _
    exact finds_closed G hC fun c ts hc hcloses => G.late opened _ c ts hopened ho hc hcloses
  · exact finds_bind (finds_identifier_of_front G hopened ho (.inr hword) hto hF (by simp))
      fun _ _ _ _ h => h.elim

/-- A definition, and what is said if it comes too late. -/
theorem finds_definition (pos : Position) (h : inner.Finds ctx C F N n) (hforms : pos.forms ≠ [])
    (hs : Supply (fun _ => True) n pos.rest) (ho : opened.opens = true)
    (hopened : C (opened :: pos.rest)) (hC : C pos.rest)
    (hhead : pos.rest[0]?.map Token.lexeme = some (.keyword .define)) :
    (definition inner opened ctx pos).Finds N C pos fun d => N (late d.span) := by
  cases hrest : pos.rest with
  | nil => simp [hrest] at hhead
  | cons word ts =>
      simp only [hrest, List.getElem?_cons_zero, Option.map_some, Option.some.injEq] at hhead
      rw [hrest] at hopened hC
      have hts : C ts := G.plain word ts hC (by simp [Token.opens, Token.isKeyword, hhead])
      rw [definition]
      refine finds_bind (finds_advance (C := (· = ts)) (Q := fun _ => True) hrest rfl trivial) ?_
      rintro _ us hus rfl -
      have hs := hs.of_suffix hus
      rw [peek_bind_apply, Position.moveTo_rest]
      cases us with
      | nil => exact finds_fail (G.surprise (pos.moveTo []) _ hts (by decide))
      | cons o us =>
          simp only [List.getElem?_cons_zero]
          split
          · exact finds_namedValue G h hforms hs hts hopened ho
          · split
            · rename_i hto
              exact finds_namedProcedure G h hforms hs rfl hts hopened ho hhead hto
            · exact finds_fail (G.surprise (pos.moveTo (o :: us)) _ hts (by decide))

/-- Inside a form that begins like a definition. -/
theorem finds_definition_inside (h : inner.Finds ctx C F N n)
    (hs : Supply (fun _ => True) (n + 1) pos.rest) {tail : List Token}
    (hrest : pos.rest = opened :: tail) (ho : opened.opens = true) (hC : C pos.rest)
    (hhead : tail[0]?.map Token.lexeme = some (.keyword .define)) :
    (definition inner opened ctx (pos.enter (ctx.counts pos opened) tail)).Finds N C
      (pos.enter (ctx.counts pos opened) tail) fun d => N (late d.span) := by
  rw [hrest] at hC
  have htail : C tail := holds_of_isOpen G (pos.enter (ctx.counts pos opened) tail)
    (isOpen_enter G hC ho) hhead (by decide)
  exact finds_definition G (pos.enter (ctx.counts pos opened) tail) h (List.cons_ne_nil _ _)
    (hs.tail hrest) ho hC htail hhead

end Parse

/-! ## Bodies -/

/-- What is said of the item, if it is a definition that comes too late. -/
def BodyItem.IsLate (N : Diagnostic → Prop) (i : BodyItem) : Prop :=
  ∀ d, i = .definition d → N (Parse.late d.span)

namespace Parse

variable {inner : Inner}

theorem isLate_itemOfParsed {p : Parsed Definition} (h : p.Holds fun d => N (late d.span)) :
    (itemOfParsed p).IsLate N := by
  cases p with
  | whole d =>
      rintro _ ⟨⟩
      exact h
  | broken s => rintro _ ⟨⟩

variable (G : Ground ctx C F N)

include G

theorem finds_item (h : inner.Finds ctx C F N n) (hforms : pos.forms ≠ [])
    (hs : Supply (fun _ => True) (n + 1) pos.rest) (hC : C pos.rest) {also : List String}
    (halso : endOfInputName ∉ also) :
    (item inner (expression inner also) ctx pos).Finds N C pos (BodyItem.IsLate N) := by
  rw [item, atDefinition_bind_apply]
  split
  · rename_i hhead
    obtain ⟨opened, tail, hrest, ho, hdef⟩ := begins_of_atDefinition hhead
    have hlands := form_definition_lands h.tidy hs hrest ho hdef
    refine finds_map ((finds_form G hforms hrest hlands (G.behind _ hC)
      (tooDeep_of_isOpen G hrest ho (.inl hC) _)
      (finds_definition_inside G h hs hrest ho hC hdef)).mono (fun _ h => h) ?_)
    exact fun p hp => isLate_itemOfParsed hp
  · refine finds_map ((finds_expression G h hforms hs (.inl hC) halso).mono (fun _ h => h) ?_)
    rintro e - d ⟨⟩

omit G in
/-- What is found about a sequence of items, if the items are. -/
theorem finds_items (pos : Position) {next : Bool → Parse (Option BodyItem)}
    (hforms : pos.forms ≠ [])
    (hnext : ∀ started q, q.forms ≠ [] → Supply (fun _ => True) n q.rest → C q.rest →
      (next started ctx q).Finds N C q fun i => ∀ i' ∈ i, i'.IsLate N)
    (hs : Supply (fun _ => True) n pos.rest) (hC : C pos.rest) (started seen : Bool)
    (rounds : Nat) :
    (items next started seen rounds ctx pos).Finds N C pos fun _ => True := by
  induction rounds generalizing pos started seen with
  | zero => trivial
  | succ rounds ih =>
      rw [items]
      refine finds_bind (hnext started pos hforms hs hC) ?_
      intro i us hus hC hi
      -- Whatever becomes of the item, those behind it are read in the same way.
      have hrest {started seen : Bool}
          {put : List Definition × List Expr → List Definition × List Expr} :
          ((items next started seen rounds >>= fun found => pure (put found)) ctx
            (pos.moveTo us)).Finds N C (pos.moveTo us) fun _ => True := by
        refine finds_bind (ih (pos.moveTo us) hforms (hs.of_suffix hus) hC started seen) ?_
        intro _ _ _ hC _
        exact finds_pure hC trivial
      cases i with
      | none => exact finds_pure hC trivial
      | some i =>
          cases i with
          | nothing => exact ih (pos.moveTo us) hforms (hs.of_suffix hus) hC _ _
          | expression e => exact hrest
          | definition d =>
              dsimp only
              split
              · rw [bind_apply]
                refine Reply.Finds.behind (List.suffix_refl _) ?_ hrest
                simpa using hi _ rfl d rfl
              · exact hrest

theorem finds_bracketedBody (h : inner.Finds ctx C F N n) (hforms : pos.forms ≠ [])
    (hs : Supply (fun _ => True) (n + 1) pos.rest) (hC : C pos.rest) :
    (bracketedBody inner ctx pos).Finds N C pos fun _ => True := by
  have hnext : ∀ started q, q.forms ≠ [] → Supply (fun _ => True) (n + 1) q.rest → C q.rest →
      (innerItem inner started ctx q).Finds N C q fun i => ∀ i' ∈ i, i'.IsLate N := by
    intro started q hforms hs hC
    rw [innerItem, peek_bind_apply]
    cases q.rest[0]? with
    | none => exact finds_pure hC (by simp)
    | some t =>
        dsimp only
        split
        · exact finds_pure hC (by simp)
        · refine finds_map ((finds_item G h hforms hs hC ?_).mono (fun _ h => h) (by simp))
          cases started <;> decide
  rw [bracketedBody]
  refine finds_bind (finds_items pos hforms hnext hs hC false false _) ?_
  rintro ⟨defs, exprs⟩ us - hC -
  dsimp only
  cases body? defs exprs with
  | none => exact finds_fail (G.surprise (pos.moveTo us) _ hC (by decide))
  | some body => exact finds_pure hC trivial

/-- At a level above the number of tokens, all that is found inside forms is of the kind. -/
theorem finds_nested (n : Nat) : (nested n).Finds ctx C F N n := by
  induction n with
  | zero =>
      refine ⟨nested_tidy ctx 0, ?_, ?_⟩
      · intro also pos _ _ hs
        exact absurd hs.length_lt (Nat.not_lt_zero _)
      · intro pos _ hs
        exact absurd hs.length_lt (Nat.not_lt_zero _)
  | succ n ih =>
      refine ⟨nested_tidy ctx (n + 1), ?_, ?_⟩
      · intro also pos halso hforms hs hopen
        exact finds_expression G ih hforms hs hopen halso
      · intro pos hforms hs hC
        exact finds_bracketedBody G ih hforms hs hC

end Parse

end SchemeFront
