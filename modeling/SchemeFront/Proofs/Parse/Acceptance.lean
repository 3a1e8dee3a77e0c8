import SchemeFront.Proofs.Lexer.Layout
import SchemeFront.Proofs.Parse.Dispatch

set_option autoImplicit false

/-! # The parser accepts the grammar

Items are sorted into the definitions and expressions of a body (`Parse.recognises_items`), so
bodies are recognised if their items are. By induction over the levels, all parsers recognise the
grammar (`Parse.nested_recognises`). The tokens of a source are accepted without findings if and
only if they have a derivation, which gives the program (`Body.ofTokens_eq_ok_iff_derives`).
-/

namespace SchemeFront

open Token

variable {ctx : Context} {pos : Position} {inner : Inner} {size n : Nat}

/-! ## Sequences of items -/

/-- The next item, or none where the sequence can stop. -/
def ValueLanguage.next (n : Nat) (stops : List Token → Prop) : ValueLanguage (Option BodyItem)
  | none, ts, rest => ts = [] ∧ stops rest
  | some i, ts, _ => DerivesItem n ts i

/-- Definitions, then expressions, up to where the sequence can stop. If an expression was `seen`
there are no definitions. -/
def ValueLanguage.sorted (n : Nat) (stops : List Token → Prop) (seen : Bool) :
    ValueLanguage (List Definition × List Expr) := fun found ts rest =>
  stops rest ∧ (seen = true → found.1 = []) ∧
    ∃ us vs, ts = us ++ vs ∧ DerivesDefinitions n us found.1 ∧ DerivesExprs n vs found.2

/-- What is read behind an item, as part of the sequence. -/
def ValueLanguage.behind (n : Nat) (stops : List Token → Prop) (seen : Bool) :
    Option BodyItem → ValueLanguage (List Definition × List Expr)
  | none => fun found ts _ => found = ([], []) ∧ ts = []
  | some .nothing => fun _ _ _ => False
  | some (.expression e) => fun found ts rest =>
      ∃ es, found.2 = e :: es ∧ sorted n stops true (found.1, es) ts rest
  | some (.definition d) => fun found ts rest =>
      seen = false ∧ ∃ ds, found.1 = d :: ds ∧ sorted n stops false (ds, found.2) ts rest

namespace Parse

/-- If an expression was seen, there is no definition among the items that follow. -/
theorem sorted_true {stops : List Token → Prop} {found : List Definition × List Expr}
    {ts rest : List Token} (h : ValueLanguage.sorted n stops true found ts rest) :
    found.1 = [] ∧ DerivesExprs n ts found.2 ∧ stops rest := by
  obtain ⟨hstops, hnone, us, vs, rfl, hdefs, hexprs⟩ := h
  have hnone := hnone rfl
  rw [hnone] at hdefs
  cases hdefs
  exact ⟨hnone, hexprs, hstops⟩

/-- A sequence begins with an item, and goes on. -/
theorem sorted_iff {stops : List Token → Prop} {seen : Bool}
    {found : List Definition × List Expr} {ts rest : List Token} :
    (∃ i us vs, ts = us ++ vs ∧ ValueLanguage.next n stops i us (vs ++ rest) ∧
      ValueLanguage.behind n stops seen i found vs rest)
        ↔ ValueLanguage.sorted n stops seen found ts rest := by
  obtain ⟨defs, exprs⟩ := found
  constructor
  · -- Behind an expression there are no definitions, so it can be put in front.
    rintro ⟨i, us, vs, rfl, hi, hbehind⟩
    rcases i with - | i
    · obtain ⟨rfl, hstops⟩ := hi
      obtain ⟨hfound, rfl⟩ := hbehind
      cases hfound
      exact ⟨hstops, fun _ => rfl, [], [], rfl, .nil n, .nil n⟩
    · cases i with
      | definition d =>
          obtain ⟨rfl, ds, rfl, hstops, -, xs, ys, rfl, hdefs, hexprs⟩ := hbehind
          exact ⟨hstops, by simp, us ++ xs, ys, by simp, .cons hi hdefs, hexprs⟩
      | expression e =>
          obtain ⟨es, rfl, hsorted⟩ := hbehind
          obtain ⟨rfl, hexprs, hstops⟩ := sorted_true hsorted
          exact ⟨hstops, fun _ => rfl, [], us ++ vs, rfl, .nil n, .cons hi hexprs⟩
      | nothing => exact hi.elim
  · rintro ⟨hstops, hseen, us, vs, rfl, hdefs, hexprs⟩
    cases hdefs with
    | nil =>
        cases hexprs with
        | nil => exact ⟨none, [], [], rfl, ⟨rfl, hstops⟩, rfl, rfl⟩
        | @cons _ xs ys e es he hes =>
            exact ⟨some (.expression e), xs, ys, rfl, he, es, rfl, hstops, fun _ => rfl, [], ys,
              rfl, .nil n, hes⟩
    | @cons _ xs ys d ds hd hds =>
        have hfalse : seen = false := by
          cases seen with
          | false => rfl
          | true => cases hseen rfl
        exact ⟨some (.definition d), xs, ys ++ vs, by simp, hd, hfalse, ds, rfl, hstops, by simp,
          ys, vs, rfl, hds, hexprs⟩

/-- Items are read one after the other, and sorted. -/
theorem recognises_items {next : Bool → Parse (Option BodyItem)} {stops : List Token → Prop}
    (hnext : ∀ started pos, Room ctx size n pos →
      Recognises (next started) ctx pos (.next n stops)) {rounds : Nat} (started seen : Bool)
    (hroom : Room ctx size n pos) (hrounds : pos.rest.length < rounds) :
    Recognises (items next started seen rounds) ctx pos (.sorted n stops seen) := by
  induction rounds generalizing pos started seen with
  | zero => exact absurd hrounds (Nat.not_lt_zero _)
  | succ rounds ih =>
      refine (recognises_bind (M := .behind n stops seen) (hnext started pos hroom) ?_).congr
        fun found ts rest _ => sorted_iff
      rintro (- | i) ts rest hrest hi
      · exact recognises_pure _
      have hroom : Room ctx size n (pos.moveTo rest) := hroom.moveTo hrest
      have hlt : (pos.moveTo rest).rest.length < rounds := by
        obtain ⟨t, us, rfl, -⟩ := DerivesItem.exists_head hi
        rw [hrest, List.length_append, List.length_cons] at hrounds
        rw [Position.moveTo_rest]
        omega
      cases i with
      | nothing => exact hi.elim
      | expression e =>
          -- The expression is no error, so no definition may follow.
          have hseen : (seen || !e.isError) = true := by
            simp [DerivesExpr.isError_eq_false hi]
          refine ((recognises_bind_pure (fun found => (found.1, e :: found.2))
            (ih true true hroom hlt)).of_eq (by
              dsimp only
              rw [hseen])).congr ?_
          rintro ⟨defs, exprs⟩ ts rest _
          constructor
          · rintro ⟨found, heq, hfound⟩
            cases heq
            exact ⟨found.2, rfl, hfound⟩
          · rintro ⟨es, rfl, hsorted⟩
            exact ⟨(defs, es), rfl, hsorted⟩
      | definition d =>
          cases seen with
          | true =>
              -- A definition behind an expression is recorded.
              refine (refuses_note_bind (late d.span) _).recognises ?_
              rintro found ts rest - ⟨hfalse, -⟩
              cases hfalse
          | false =>
              refine ((recognises_bind_pure (fun found => (d :: found.1, found.2))
                (ih started false hroom hlt)).of_eq rfl).congr ?_
              rintro ⟨defs, exprs⟩ ts rest _
              constructor
              · rintro ⟨found, heq, hfound⟩
                cases heq
                exact ⟨rfl, found.1, rfl, hfound⟩
              · rintro ⟨-, ds, rfl, hsorted⟩
                exact ⟨(ds, exprs), rfl, hsorted⟩

/-! ## Bodies -/

/-- What is found becomes a body, if there is an expression in it. -/
theorem recognises_of_body? {p : Parse Body} {defs : List Definition} {exprs : List Expr}
    (hsome : ∀ b, body? defs exprs = some b → p ctx pos = (pure b : Parse Body) ctx pos)
    (hnone : body? defs exprs = none → Refuses p ctx pos) :
    Recognises p ctx pos fun b ts _ => ts = [] ∧ b.defs = defs ∧ b.exprs = exprs := by
  cases hbody : body? defs exprs with
  | none =>
      refine (hnone hbody).recognises ?_
      rintro b ts rest - ⟨-, hb⟩
      rw [body?_eq_some_iff.2 hb] at hbody
      cases hbody
  | some body =>
      refine ((recognises_pure body).of_eq (hsome body hbody)).congr ?_
      intro b ts rest _
      constructor
      · rintro ⟨rfl, rfl⟩
        exact ⟨rfl, body?_eq_some_iff.1 hbody⟩
      · rintro ⟨rfl, hb⟩
        rw [body?_eq_some_iff.2 hb] at hbody
        exact ⟨Option.some.inj hbody, rfl⟩

/-- Items that are recognised and sorted are a body. -/
theorem recognises_sorted_body {next : Bool → Parse (Option BodyItem)}
    {stops : List Token → Prop} (make : List Definition × List Expr → Parse Body)
    (hnext : ∀ started pos, Room ctx size n pos →
      Recognises (next started) ctx pos (.next n stops)) (hroom : Room ctx size n pos)
    (hsome : ∀ found pos b, body? found.1 found.2 = some b →
      make found ctx pos = (pure b : Parse Body) ctx pos)
    (hnone : ∀ found pos, body? found.1 found.2 = none → Refuses (make found) ctx pos) :
    Recognises (allItems next >>= make) ctx pos fun b ts rest =>
      DerivesBody n ts b ∧ stops rest := by
  have hitems : Recognises (allItems next) ctx pos (.sorted n stops false) :=
    (recognises_items hnext false false hroom (Nat.lt_succ_self _)).of_eq rfl
  refine (recognises_bind hitems fun found _ rest _ _ =>
    recognises_of_body? (hsome found _) (hnone found _)).congr ?_
  intro b ts rest _
  constructor
  · rintro ⟨⟨_, _⟩, us, _, rfl, ⟨hstops, -, xs, ys, rfl, hdefs, hexprs⟩, rfl, rfl, rfl⟩
    exact ⟨by simpa using .mk hdefs hexprs, hstops⟩
  · rintro ⟨hbody, hstops⟩
    cases hbody with
    | @mk _ xs ys b hdefs hexprs =>
        exact ⟨(b.defs, b.exprs), xs ++ ys, [], (List.append_nil _).symm,
          ⟨hstops, by simp, xs, ys, rfl, hdefs, hexprs⟩, rfl, rfl, rfl⟩

/-! ## Items of bodies -/

/-- Where a sequence stops and no item can begin, there is no item. -/
theorem recognises_stop {stops : List Token → Prop} (hstops : stops pos.rest)
    (hclosed : Ends pos.rest) :
    Recognises (pure none : Parse (Option BodyItem)) ctx pos (.next n stops) := by
  refine (recognises_pure none).congr ?_
  rintro (- | i) ts rest hrest
  · constructor
    · rintro ⟨-, rfl⟩
      rw [List.nil_append] at hrest
      exact ⟨rfl, hrest ▸ hstops⟩
    · rintro ⟨rfl, -⟩
      exact ⟨rfl, rfl⟩
  · constructor
    · rintro ⟨hnone, -⟩
      cases hnone
    · intro hi
      obtain ⟨t, us, rfl, ht⟩ := DerivesItem.exists_head hi
      simp [hclosed t (by simp [hrest])] at ht

/-- Where a sequence does not stop, there is an item. -/
theorem recognises_some {stops : List Token → Prop} {p : Parse BodyItem}
    (hstops : ¬ stops pos.rest)
    (hp : Recognises p ctx pos fun i ts _ => DerivesItem n ts i) :
    Recognises (some <$> p) ctx pos (.next n stops) := by
  refine (recognises_map some hp).congr ?_
  rintro (- | i) ts rest hrest
  · constructor
    · rintro ⟨i, hnone, -⟩
      cases hnone
    · rintro ⟨rfl, hstop⟩
      rw [List.nil_append] at hrest
      exact absurd (hrest ▸ hstop) hstops
  · constructor
    · rintro ⟨_, heq, hi⟩
      cases heq
      exact hi
    · intro hi
      exact ⟨i, rfl, hi⟩

theorem recognises_innerItem (h : inner.Recognises ctx size) (hroom : Room ctx (size + 1) n pos)
    (started : Bool) : Recognises (innerItem inner started) ctx pos (.next n Ends) := by
  cases hrest : pos.rest with
  | nil =>
      refine (recognises_stop ?_ ?_).of_eq (by
        rw [innerItem, peek_bind_apply, hrest]
        rfl) <;> simp [hrest, Ends]
  | cons t tail =>
      cases ht : t.closes with
      | true =>
          refine (recognises_stop ?_ ?_).of_eq (by
            rw [innerItem, peek_bind_apply, hrest]
            simp [ht]) <;> simp [hrest, Ends, ht]
      | false =>
          refine (recognises_some (by simp [hrest, Ends, ht]) (recognises_item h hroom
            (recognises_expression h hroom (if started then [")"] else [])))).of_eq (by
              rw [innerItem, peek_bind_apply, hrest]
              simp [ht])

theorem recognises_recovered {expr : Parse Expr} {L : ValueLanguage Expr}
    (h : Recognises expr ctx pos L) : Recognises (recovered expr) ctx pos L := by
  intro e after
  rw [yields_recovered_iff]
  exact h e after

theorem recognises_outerItem (h : inner.Recognises ctx size) (hroom : Room ctx (size + 1) n pos)
    (started : Bool) : Recognises (outerItem inner started) ctx pos (.next n (· = [])) := by
  cases hrest : pos.rest with
  | nil =>
      refine (recognises_stop hrest ?_).of_eq (by
        rw [outerItem, peek_bind_apply, hrest]
        rfl)
      simp [hrest, Ends]
  | cons t tail =>
      cases ht : t.closes with
      | true =>
          -- A bracket too many is recorded, and no item begins with it.
          refine ((refuses_note_bind (strayClose t) _).of_eq (by
            rw [outerItem, peek_bind_apply, hrest]
            simp only [List.getElem?_cons_zero, ht, if_true]
            rfl)).recognises ?_
          rintro (- | i) ts rest hsplit hi
          · obtain ⟨rfl, rfl⟩ := hi
            cases hrest.symm.trans hsplit
          · obtain ⟨u, us, rfl, hu⟩ := DerivesItem.exists_head hi
            obtain ⟨rfl, -⟩ := List.cons.inj (hrest.symm.trans hsplit)
            simp [ht] at hu
      | false =>
          refine (recognises_some (by simp [hrest]) (recognises_item h hroom
            (recognises_recovered (recognises_expression h hroom [])))).of_eq (by
              rw [outerItem, peek_bind_apply, hrest]
              simp [ht])

/-! ## All levels -/

theorem recognises_bracketedBody (h : inner.Recognises ctx size)
    (hroom : Room ctx (size + 1) n pos) :
    Recognises (bracketedBody inner) ctx pos fun b ts rest => DerivesBody n ts b ∧ Ends rest := by
  refine recognises_sorted_body _ (fun started pos hroom => recognises_innerItem h hroom started)
    hroom ?_ ?_
  · intro found pos b hbody
    simp only [hbody]
  · intro found pos hbody
    simp only [hbody]
    exact refuses_fail _

/-- At a level above the number of tokens, the parsers recognise the grammar. -/
theorem nested_recognises (ctx : Context) (level : Nat) :
    (nested level).Recognises ctx level := by
  induction level with
  | zero =>
      constructor
      · intro also pos n hroom
        exact absurd hroom.length_lt (Nat.not_lt_zero _)
      · intro pos n hroom
        exact absurd hroom.length_lt (Nat.not_lt_zero _)
  | succ level ih =>
      constructor
      · intro also pos n hroom
        exact recognises_expression ih hroom also
      · intro pos n hroom
        exact recognises_bracketedBody ih hroom

/-- A program is a body that is all there is. -/
theorem recognises_program (hroom : Room ctx (pos.rest.length + 1) n pos) :
    Recognises program ctx pos fun p ts rest => DerivesBody n ts p ∧ rest = [] := by
  refine (recognises_sorted_body (fun found => programOf found.1 found.2)
    (fun started pos hroom => recognises_outerItem (nested_recognises ctx _) hroom started)
    hroom ?_ ?_).of_eq rfl
  · intro found pos b hbody
    simp only [programOf, hbody]
  · intro found pos hbody
    refine (refuses_note_bind
      (Diagnostic.unexpected ctx.endOfInput none [definitionName, expressionName])
      fun _ => pure ⟨found.1, [], .error ctx.endOfInput⟩).of_eq ?_
    simp only [programOf, hbody]

end Parse

/-- All tokens are a program if and only if they have a derivation. -/
theorem Parse.exists_yields_program_iff (pos : Position) {p : Program}
    (hroom : Room ctx (pos.rest.length + 1) n pos) :
    (∃ after, Yields program ctx pos p after) ↔ DerivesBody n pos.rest p := by
  constructor
  · rintro ⟨after, hyields⟩
    obtain ⟨ts, _, hrest, -, hbody, rfl⟩ := (recognises_program hroom p after).1 hyields
    rwa [hrest, List.append_nil]
  · intro hbody
    exact ⟨pos.moveTo [], (recognises_program hroom p _).2
      ⟨pos.rest, [], (List.append_nil _).symm, rfl, hbody, rfl⟩⟩

/-- A context in which all brackets count and `n` levels are allowed. -/
def Context.counting (n : Nat) : Context := ⟨fun _ => true, Span.point "" 0, n⟩

theorem Context.room_counting (n : Nat) (ts : List Token) :
    Room (counting n) (ts.length + 1) n { rest := ts } :=
  ⟨by simp [counting], fun _ _ _ => rfl, Nat.lt_succ_self _⟩

/-- No tokens are the tokens of two programs: the parser gives only one answer. -/
theorem DerivesBody.unique {ts : List Token} {p q : Body} (hp : DerivesBody n ts p)
    (hq : DerivesBody n ts q) : p = q := by
  have hroom := Context.room_counting n ts
  obtain ⟨after, trace, hdone, -⟩ := (Parse.exists_yields_program_iff { rest := ts } hroom).2 hp
  obtain ⟨after', trace', hdone', -⟩ := (Parse.exists_yields_program_iff { rest := ts } hroom).2 hq
  rw [hdone] at hdone'
  cases hdone'
  rfl

/-! ## Sources -/

namespace Body

variable {src : Source} {l : Lexed}

/-- The tokens of a source leave room for as many levels as are allowed. -/
theorem room_ofSource (hl : Lexed.ofSource src = .ok l) (limit : Nat) :
    Room (Context.ofSource limit src) (l.tokens.length + 1) limit { rest := l.tokens } where
  limit_eq := by simp [Context.ofSource]
  written t ht ho := by
    have hexcerpt := Lexed.excerpt_of_isKeyword hl ht ho
    simp only [Context.ofSource, hexcerpt]
    rfl
  length_lt := Nat.lt_succ_self _

/-- A program without findings is what the parser yields. -/
theorem ofTokens_eq_ok_iff_yields {limit : Int} {ts : List Token} {p : Program} :
    ofTokens limit src ts = .ok (p, []) ↔
      ∃ after, Parse.Yields Parse.program (Context.ofSource limit src) { rest := ts } p after := by
  rw [ofTokens]
  unfold Parse.Yields
  cases Parse.program (Context.ofSource limit src) { rest := ts } with
  | done q trace after =>
      constructor
      · intro h
        obtain ⟨rfl, hnotes⟩ := Prod.mk.inj (Except.ok.inj h)
        exact ⟨after, trace, rfl, hnotes⟩
      · rintro ⟨_, _, hdone, hnotes⟩
        cases hdone
        simp only [hnotes]
  | failed why trace after => simp
  | fault fault => simp

/-- **The parser accepts the grammar.** The tokens of a source give a program without findings if
and only if it is derived from them with no more levels than allowed. It is the only one that is
derived from them. -/
theorem ofTokens_eq_ok_iff_derives (hl : Lexed.ofSource src = .ok l) (limit : Nat) :
    (∀ p, ofTokens limit src l.tokens = .ok (p, []) ↔ DerivesBody limit l.tokens p) ∧
      ∀ p q, DerivesBody limit l.tokens p → DerivesBody limit l.tokens q → p = q := by
  refine ⟨fun p => ?_, fun p q hp hq => hp.unique hq⟩
  rw [ofTokens_eq_ok_iff_yields]
  exact Parse.exists_yields_program_iff _ (room_ofSource hl limit)

/-- A procedure and its call are nested one level deep, with the bracket of the parameters two. -/
theorem ofTokens_eq_ok_iff_derives_call :
    ∃ l p, Lexed.ofSource ⟨"a.scm", "(define (f x) x) (f 1)".toList⟩ = .ok l ∧
      DerivesBody 1 l.tokens p ∧ ∀ q, ¬ DerivesBody 0 l.tokens q := by
  have hone : ((Lexed.ofSource ⟨"a.scm", "(define (f x) x) (f 1)".toList⟩).toOption.bind fun l =>
      (ofTokens 1 ⟨"a.scm", "(define (f x) x) (f 1)".toList⟩ l.tokens).toOption.map Prod.snd)
        = some [] := by
    decide +kernel
  have hnone : ((Lexed.ofSource ⟨"a.scm", "(define (f x) x) (f 1)".toList⟩).toOption.bind fun l =>
      (ofTokens 0 ⟨"a.scm", "(define (f x) x) (f 1)".toList⟩ l.tokens).toOption.map Prod.snd)
        ≠ some [] := by
    decide +kernel
  cases hl : Lexed.ofSource ⟨"a.scm", "(define (f x) x) (f 1)".toList⟩ with
  | error fault =>
      rw [hl] at hone
      cases hone
  | ok l =>
      simp only [hl, Except.toOption, Option.bind_some] at hone hnone
      cases hp : ofTokens 1 ⟨"a.scm", "(define (f x) x) (f 1)".toList⟩ l.tokens with
      | error fault =>
          rw [hp] at hone
          cases hone
      | ok found =>
          obtain ⟨p, notes⟩ := found
          rw [hp] at hone
          obtain rfl : notes = [] := Option.some.inj hone
          refine ⟨l, p, rfl, ((ofTokens_eq_ok_iff_derives hl 1).1 p).1 hp, ?_⟩
          intro q hq
          have hempty : ofTokens 0 ⟨"a.scm", "(define (f x) x) (f 1)".toList⟩ l.tokens
              = .ok (q, []) := ((ofTokens_eq_ok_iff_derives hl 0).1 q).2 hq
          rw [hempty] at hnone
          exact hnone rfl

end Body

end SchemeFront
