import SchemeFront.Parse.Body
import SchemeFront.Proofs.Grammar

set_option autoImplicit false

/-! # Recognition

What a parser recognises at a position (`Parse.Recognises`) is a language: which values it gives
for which tokens, if these tokens and no more are read and nothing is found to be wrong. The
language may also depend on the tokens that are left. Both directions are contained in one
statement, so a rule for each way of building a parser (`Parse.recognises_bind`, …) is enough to
compute its language. Inside a form that is not nested too deeply (`Room`), the rule for forms
takes a level away.
-/

namespace SchemeFront

/-- Values, with tokens for them and tokens that are left. -/
abbrev ValueLanguage (α : Type) := α → (ts rest : List Token) → Prop

variable {α β : Type} {ctx : Context} {pos : Position} {size n : Nat}

/-! ## Room for forms -/

/-- At this position `n` further levels are allowed, all brackets are written in the source, and
fewer than `size` tokens are left. -/
structure Room (ctx : Context) (size n : Nat) (pos : Position) : Prop where
  limit_eq : ctx.limit = pos.depth + n
  written : ∀ t ∈ pos.rest, t.opens = true → ctx.written t = true
  length_lt : pos.rest.length < size

theorem Room.moveTo {ts rest : List Token} (h : Room ctx size n pos)
    (hrest : pos.rest = ts ++ rest) : Room ctx size n (pos.moveTo rest) where
  limit_eq := h.limit_eq
  written t ht := h.written t (by simp only [hrest, List.mem_append]; exact .inr ht)
  length_lt := by
    have hlt := h.length_lt
    rw [hrest, List.length_append] at hlt
    exact Nat.lt_of_le_of_lt (Nat.le_add_left _ _) hlt

/-- Inside a form there is one level less, and one token less is left. -/
theorem Room.enter {t : Token} {ts : List Token} (h : Room ctx (size + 1) (n + 1) pos)
    (hrest : pos.rest = t :: ts) : Room ctx size n (pos.enter true ts) where
  limit_eq := by
    rw [h.limit_eq]
    simp only [Position.enter, if_true]
    omega
  written u hu := h.written u (by simp only [hrest, List.mem_cons]; exact .inr hu)
  length_lt := by
    have hlt := h.length_lt
    rw [hrest, List.length_cons] at hlt
    exact Nat.lt_of_succ_lt_succ hlt

namespace Parse

/-! ## Answers without findings -/

/-- The answer is the value `a`, at the position `after`, and nothing was found to be wrong. -/
def Yields (p : Parse α) (ctx : Context) (pos : Position) (a : α) (after : Position) : Prop :=
  ∃ trace, p ctx pos = .done a trace after ∧ trace.notes = []

theorem yields_bind_iff {p : Parse α} {g : α → Parse β} {b : β} {last : Position} :
    Yields (p >>= g) ctx pos b last
      ↔ ∃ a after, Yields p ctx pos a after ∧ Yields (g a) ctx after b last := by
  constructor
  · rintro ⟨trace, hdone, hnotes⟩
    rw [bind_apply] at hdone
    cases hp : p ctx pos with
    | done a early after =>
        rw [hp] at hdone
        dsimp only at hdone
        cases hg : g a ctx after with
        | done c late last' =>
            rw [hg] at hdone
            cases hdone
            obtain ⟨hearly, hlate⟩ := List.append_eq_nil_iff.1 hnotes
            exact ⟨a, after, ⟨early, hp, hearly⟩, late, hg, hlate⟩
        | failed why late last' =>
            rw [hg] at hdone
            cases hdone
        | fault fault =>
            rw [hg] at hdone
            cases hdone
    | failed why early after =>
        rw [hp] at hdone
        cases hdone
    | fault fault =>
        rw [hp] at hdone
        cases hdone
  · rintro ⟨a, after, ⟨early, hp, hearly⟩, late, hg, hlate⟩
    exact ⟨early ++ late, by rw [bind_apply, hp]; simp only [hg, Reply.behind],
      by rw [Trace.notes_append, hearly, hlate, List.append_nil]⟩

/-! ## Languages -/

/-- At `pos`, the parser yields just the values of the language `L`. -/
def Recognises (p : Parse α) (ctx : Context) (pos : Position) (L : ValueLanguage α) : Prop :=
  ∀ a after, Yields p ctx pos a after
    ↔ ∃ ts rest, pos.rest = ts ++ rest ∧ after = pos.moveTo rest ∧ L a ts rest

/-- Only how a parser answers at the position counts. -/
theorem Recognises.of_eq {p q : Parse α} {L : ValueLanguage α} (h : Recognises q ctx pos L)
    (heq : p ctx pos = q ctx pos) : Recognises p ctx pos L := by
  intro a after
  rw [Yields, heq]
  exact h a after

/-- Only the tokens at the position count. -/
theorem Recognises.congr {p : Parse α} {L M : ValueLanguage α} (h : Recognises p ctx pos L)
    (hLM : ∀ a ts rest, pos.rest = ts ++ rest → (L a ts rest ↔ M a ts rest)) :
    Recognises p ctx pos M := by
  intro a after
  rw [h a after]
  constructor
  · rintro ⟨ts, rest, hrest, hafter, hL⟩
    exact ⟨ts, rest, hrest, hafter, (hLM a ts rest hrest).1 hL⟩
  · rintro ⟨ts, rest, hrest, hafter, hM⟩
    exact ⟨ts, rest, hrest, hafter, (hLM a ts rest hrest).2 hM⟩

/-- The language of one parser after another. -/
theorem recognises_bind {p : Parse α} {g : α → Parse β} {L : ValueLanguage α}
    {M : α → ValueLanguage β} (hp : Recognises p ctx pos L)
    (hg : ∀ a ts rest, pos.rest = ts ++ rest → L a ts rest →
      Recognises (g a) ctx (pos.moveTo rest) (M a)) :
    Recognises (p >>= g) ctx pos fun b ts rest =>
      ∃ a us vs, ts = us ++ vs ∧ L a us (vs ++ rest) ∧ M a b vs rest := by
  intro b last
  rw [yields_bind_iff]
  constructor
  · rintro ⟨a, after, hyields, hmore⟩
    obtain ⟨us, rest, hrest, rfl, hL⟩ := (hp a after).1 hyields
    obtain ⟨vs, rest', hrest', rfl, hM⟩ := (hg a us rest hrest hL b last).1 hmore
    rw [Position.moveTo_rest] at hrest'
    subst hrest'
    exact ⟨us ++ vs, rest', by rw [hrest, List.append_assoc], rfl, a, us, vs, rfl, hL, hM⟩
  · rintro ⟨_, rest, hrest, rfl, a, us, vs, rfl, hL, hM⟩
    rw [List.append_assoc] at hrest
    exact ⟨a, _, (hp a _).2 ⟨us, vs ++ rest, hrest, rfl, hL⟩,
      (hg a us _ hrest hL b _).2 ⟨vs, rest, rfl, rfl, hM⟩⟩

/-- What is read leaves the room there was. -/
theorem recognises_bind_of_room {p : Parse α} {g : α → Parse β} {L : ValueLanguage α}
    {M : α → ValueLanguage β} (hroom : Room ctx size n pos) (hp : Recognises p ctx pos L)
    (hg : ∀ a rest, Room ctx size n (pos.moveTo rest) →
      Recognises (g a) ctx (pos.moveTo rest) (M a)) :
    Recognises (p >>= g) ctx pos fun b ts rest =>
      ∃ a us vs, ts = us ++ vs ∧ L a us (vs ++ rest) ∧ M a b vs rest :=
  recognises_bind hp fun a _ rest hrest _ => hg a rest (hroom.moveTo hrest)

theorem recognises_pure (a : α) :
    Recognises (pure a) ctx pos fun b ts _ => b = a ∧ ts = [] := by
  intro b last
  constructor
  · rintro ⟨trace, hdone, -⟩
    cases hdone
    exact ⟨[], pos.rest, rfl, rfl, rfl, rfl⟩
  · rintro ⟨_, rest, hrest, rfl, rfl, rfl⟩
    rw [List.nil_append] at hrest
    exact ⟨∅, by rw [← hrest]; rfl, rfl⟩

/-- The language of a parser with changed values. -/
theorem recognises_bind_pure {p : Parse α} {L : ValueLanguage α} (f : α → β)
    (hp : Recognises p ctx pos L) :
    Recognises (do let a ← p; return f a) ctx pos fun b ts rest => ∃ a, b = f a ∧ L a ts rest := by
  refine (recognises_bind hp fun a _ _ _ _ => recognises_pure (f a)).congr ?_
  intro b ts rest _
  constructor
  · rintro ⟨a, us, _, rfl, hL, rfl, rfl⟩
    exact ⟨a, rfl, by simpa using hL⟩
  · rintro ⟨a, rfl, hL⟩
    exact ⟨a, ts, [], (List.append_nil ts).symm, by simpa using hL, rfl, rfl⟩

theorem recognises_map {p : Parse α} {L : ValueLanguage α} (f : α → β)
    (hp : Recognises p ctx pos L) :
    Recognises (f <$> p) ctx pos fun b ts rest => ∃ a, b = f a ∧ L a ts rest := by
  rw [← bind_pure_comp]
  exact recognises_bind_pure f hp

/-! ## Refusals -/

/-- The parser gives no answer without findings. -/
def Refuses (p : Parse α) (ctx : Context) (pos : Position) : Prop :=
  ∀ a after, ¬ Yields p ctx pos a after

theorem Refuses.of_eq {p q : Parse α} (h : Refuses q ctx pos) (heq : p ctx pos = q ctx pos) :
    Refuses p ctx pos := by
  intro a after
  rw [Yields, heq]
  exact h a after

/-- What was read before does not make up for a refusal. -/
theorem Refuses.notes_ne_nil {p : Parse α} (h : Refuses p ctx pos) {a : α} {after : Position}
    {early trace : Trace} (hdone : (p ctx pos).behind early = .done a trace after) :
    trace.notes ≠ [] := by
  intro hnotes
  cases hp : p ctx pos with
  | done b late last =>
      rw [hp] at hdone
      cases hdone
      have hlate : late.notes = [] := (List.append_eq_nil_iff.1 hnotes).2
      exact h a after ⟨late, hp, hlate⟩
  | failed why late last =>
      rw [hp] at hdone
      cases hdone
  | fault fault =>
      rw [hp] at hdone
      cases hdone

/-- Where nothing is recognised, any language is that is empty there. -/
theorem Refuses.recognises {p : Parse α} {L : ValueLanguage α} (h : Refuses p ctx pos)
    (hL : ∀ a ts rest, pos.rest = ts ++ rest → ¬ L a ts rest) : Recognises p ctx pos L := by
  intro a after
  constructor
  · intro hyields
    exact absurd hyields (h a after)
  · rintro ⟨ts, rest, hrest, -, ha⟩
    exact absurd ha (hL a ts rest hrest)

theorem refuses_fail (expected : List String) : Refuses (fail expected : Parse α) ctx pos := by
  rintro a after ⟨trace, hdone, -⟩
  cases hdone

theorem refuses_reject (why : Diagnostic) : Refuses (reject why : Parse α) ctx pos := by
  rintro a after ⟨trace, hdone, -⟩
  cases hdone

/-- Nothing that follows can take a finding back. -/
theorem refuses_note_bind (d : Diagnostic) (g : Unit → Parse α) :
    Refuses (note d >>= g) ctx pos := by
  intro a after hyields
  obtain ⟨_, _, ⟨trace, hdone, hnotes⟩, -⟩ := yields_bind_iff.1 hyields
  cases hdone
  cases hnotes

/-- A form that is skipped is recorded. -/
theorem refuses_recover (start : List Token) (d : Diagnostic) :
    Refuses (recover start d : Parse (Parsed α)) ctx pos :=
  refuses_note_bind d _

/-! ## Single tokens -/

theorem recognises_advance : Recognises advance ctx pos fun t ts _ => ts = [t] := by
  intro t last
  constructor
  · rintro ⟨trace, hdone, -⟩
    cases hrest : pos.rest with
    | nil => simp [advance, hrest] at hdone
    | cons u rest =>
        simp only [advance, hrest, Reply.done.injEq] at hdone
        obtain ⟨rfl, -, rfl⟩ := hdone
        exact ⟨[u], rest, rfl, rfl, rfl⟩
  · rintro ⟨_, rest, hrest, rfl, rfl⟩
    rw [List.singleton_append] at hrest
    exact ⟨_, by rw [advance, hrest], rfl⟩

theorem recognises_close : Recognises close ctx pos fun k ts _ => ts = [k] ∧ k.closes = true := by
  refine Recognises.of_eq (q := if pos.rest[0]?.any Token.closes then advance else fail [")"])
    ?_ (by rw [close, nextCloses_bind_apply])
  split
  · rename_i hcloses
    refine recognises_advance.congr ?_
    intro k ts rest hrest
    constructor
    · rintro rfl
      exact ⟨rfl, by simpa [hrest] using hcloses⟩
    · exact And.left
  · rename_i hcloses
    refine (refuses_fail [")"]).recognises ?_
    rintro k _ rest hrest ⟨rfl, hk⟩
    exact hcloses (by simpa [hrest] using hk)

@[simp] theorem name?_token (i : Identifier) : i.token.name? = some i.name := rfl

theorem recognises_identifier (also : List String) :
    Recognises (identifier also) ctx pos fun i ts _ => ts = [i.token] := by
  cases hname : pos.rest[0]?.bind Token.name? with
  | none =>
      refine ((refuses_fail (identifierName :: also)).of_eq (by
        rw [identifier, peek_bind_apply, hname])).recognises ?_
      rintro i _ rest hrest rfl
      simp [hrest] at hname
  | some name =>
      refine ((recognises_bind_pure (fun t : Token => (⟨name, t.span⟩ : Identifier))
        recognises_advance).of_eq (by rw [identifier, peek_bind_apply, hname])).congr ?_
      intro i ts rest hrest
      constructor
      · rintro ⟨t, rfl, rfl⟩
        -- Only an identifier has a name, and this is the token it is written as.
        obtain ⟨l, s⟩ := t
        simp only [hrest, List.singleton_append, List.getElem?_cons_zero, Option.bind_some,
          Token.name?] at hname
        cases l with
        | keyword k => cases hname
        | atom a =>
            cases a with
            | ident x =>
                cases hname
                rfl
            | _ => cases hname
      · rintro rfl
        have hi : i.name = name := by simpa [hrest] using hname
        subst hi
        exact ⟨i.token, rfl, rfl⟩

/-- The last step inside a form: its closing bracket. -/
theorem recognises_closed (h : Token → α) :
    Recognises (do let closed ← close; return h closed) ctx pos
      fun a ts _ => ∃ k, k.closes = true ∧ ts = [k] ∧ a = h k := by
  refine (recognises_bind_pure h recognises_close).congr ?_
  intro a ts rest _
  constructor
  · rintro ⟨k, rfl, rfl, hk⟩
    exact ⟨k, hk, rfl, rfl⟩
  · rintro ⟨k, hk, rfl, rfl⟩
    exact ⟨k, rfl, rfl, hk⟩

/-! ## Forms -/

/-- Where a failure would be recorded, only what is inside can give an answer without findings. -/
theorem yields_guarded_iff {construct : String} {outer : Position} {opened : Token}
    {inner : Parse α} {p : Parsed α} {after : Position} :
    Yields (guarded construct outer opened inner) ctx pos p after
      ↔ ∃ a, p = .whole a ∧ Yields inner ctx pos a after := by
  constructor
  · rintro ⟨trace, hdone, hnotes⟩
    rw [guarded] at hdone
    cases hinner : inner ctx pos with
    | done a early last =>
        rw [hinner] at hdone
        cases hdone
        exact ⟨a, rfl, trace, hinner, hnotes⟩
    | failed why early last =>
        rw [hinner] at hdone
        dsimp only at hdone
        -- A failure is passed on, which is no answer, or recorded, which is a finding.
        split at hdone
        · cases hdone
        · exact absurd hnotes ((refuses_recover _ _).notes_ne_nil hdone)
    | fault fault =>
        rw [hinner] at hdone
        cases hdone
  · rintro ⟨a, rfl, trace, hinner, hnotes⟩
    exact ⟨trace, by rw [guarded, hinner], hnotes⟩

/-- A form is an answer without findings if there is a level left for it and what is inside is
one. -/
theorem yields_form_iff {construct : String} {inner : Token → Parse α} {opened : Token}
    {tail : List Token} (hrest : pos.rest = opened :: tail) {p : Parsed α} {last : Position} :
    Yields (form construct inner) ctx pos p last
      ↔ ¬ (ctx.counts pos opened = true ∧ ctx.limit ≤ pos.depth) ∧ ∃ a after, p = .whole a ∧
        Yields (inner opened) ctx (pos.enter (ctx.counts pos opened) tail) a after ∧
        last = after.leave (ctx.counts pos opened) := by
  by_cases hlimit : ctx.counts pos opened = true ∧ ctx.limit ≤ pos.depth
  · -- Without a level left the form is refused, with a finding.
    have hform : form construct inner ctx pos
        = recover pos.rest (Diagnostic.tooDeep ctx.limit opened.span construct) ctx pos := by
      simp only [form, hrest, hlimit.1, hlimit.2, decide_true, Bool.and_self, if_true]
    have hnot : ¬ Yields (form construct inner) ctx pos p last := by
      rw [Yields, hform]
      exact refuses_recover _ _ p last
    simp [hnot, hlimit]
  · have hform : form construct inner ctx pos
        = ((guarded construct pos opened (inner opened) ctx
            (pos.enter (ctx.counts pos opened) tail)).behind
          (.ofPosition (pos.enter (ctx.counts pos opened) tail))).leaving
            (ctx.counts pos opened) := by
      simp only [form, hrest]
      rw [if_neg (by simpa using hlimit)]
    constructor
    · rintro ⟨trace, hdone, hnotes⟩
      rw [hform] at hdone
      cases hguarded : guarded construct pos opened (inner opened) ctx
          (pos.enter (ctx.counts pos opened) tail) with
      | done q early after =>
          rw [hguarded] at hdone
          cases hdone
          have hearly : early.notes = [] := by simpa using hnotes
          obtain ⟨a, rfl, hinner⟩ := yields_guarded_iff.1 ⟨early, hguarded, hearly⟩
          exact ⟨hlimit, a, after, rfl, hinner, rfl⟩
      | failed why early after =>
          rw [hguarded] at hdone
          cases hdone
      | fault fault =>
          rw [hguarded] at hdone
          cases hdone
    · rintro ⟨-, a, after, rfl, hinner, rfl⟩
      obtain ⟨early, hguarded, hearly⟩ := yields_guarded_iff.2 ⟨a, rfl, hinner⟩
      exact ⟨_, by rw [hform, hguarded]; rfl, by simp [hearly]⟩

/-- Where there is room, a written bracket takes one of the levels. -/
theorem yields_form_iff_of_room {construct : String} {inner : Token → Parse α} {opened : Token}
    {tail : List Token} (hroom : Room ctx size n pos) (hrest : pos.rest = opened :: tail)
    (ho : opened.opens = true) {p : Parsed α} {last : Position} :
    Yields (form construct inner) ctx pos p last
      ↔ ∃ a after, n ≠ 0 ∧ p = .whole a ∧
        Yields (inner opened) ctx (pos.enter true tail) a after ∧ last = after.leave true := by
  have hcounts : ctx.counts pos opened = true := by
    rw [Context.counts, hroom.written opened (by simp [hrest]) ho, Bool.true_or]
  have hlimit : ctx.limit ≤ pos.depth ↔ n = 0 := by
    rw [hroom.limit_eq]
    omega
  simp only [yields_form_iff hrest, hcounts, hlimit, true_and, exists_and_left, ne_eq]

/-- A failure that is recorded is a finding, so only the expression gives an answer without. -/
theorem yields_recovered_iff {expr : Parse Expr} {e : Expr} {after : Position} :
    Yields (recovered expr) ctx pos e after ↔ Yields expr ctx pos e after := by
  unfold Yields recovered
  cases hexpr : expr ctx pos with
  | done e' trace last => rfl
  | failed why early last =>
      have hnothing : Refuses (ofParsed <$> recover last.rest why) ctx last := by
        intro e' last' hyields
        rw [← bind_pure_comp] at hyields
        obtain ⟨_, _, hrec, -⟩ := yields_bind_iff.1 hyields
        exact refuses_recover _ _ _ _ hrec
      constructor
      · rintro ⟨trace, hdone, hnotes⟩
        exact absurd hnotes (hnothing.notes_ne_nil hdone)
      · rintro ⟨trace, hdone, -⟩
        cases hdone
  | fault fault => rfl

/-- The language of a form, from that of what is inside at one level less. -/
theorem recognises_form (construct : String) (inner : Token → Parse α) {opened : Token}
    {tail : List Token} {L : Nat → ValueLanguage α} (hroom : Room ctx (size + 1) n pos)
    (hrest : pos.rest = opened :: tail) (ho : opened.opens = true)
    (hinner : ∀ m, Room ctx size m (pos.enter true tail) →
      Recognises (inner opened) ctx (pos.enter true tail) (L m)) :
    Recognises (form construct inner) ctx pos fun p ts rest =>
      ∃ m a us, n = m + 1 ∧ p = .whole a ∧ ts = opened :: us ∧ L m a us rest := by
  intro p last
  rw [yields_form_iff_of_room hroom hrest ho]
  cases n with
  | zero => simp
  | succ m =>
      have hL := hinner m (hroom.enter hrest)
      constructor
      · rintro ⟨a, after, -, rfl, hyields, rfl⟩
        -- Leaving the form undoes entering it, up to the tokens that were read.
        obtain ⟨us, rest, htail, rfl, ha⟩ := (hL a after).1 hyields
        rw [Position.enter_rest] at htail
        subst htail
        exact ⟨opened :: us, rest, hrest, Position.leave_moveTo_enter pos true _ rest, m, a, us,
          rfl, rfl, rfl, ha⟩
      · rintro ⟨_, rest, hsplit, rfl, m', a, us, hm, rfl, rfl, ha⟩
        obtain rfl := Nat.succ.inj hm
        have htail : tail = us ++ rest := (List.cons.inj (hrest.symm.trans hsplit)).2
        exact ⟨a, _, Nat.succ_ne_zero m, rfl, (hL a _).2 ⟨us, rest, htail, rfl, ha⟩,
          (Position.leave_moveTo_enter pos true tail rest).symm⟩

end Parse

end SchemeFront
