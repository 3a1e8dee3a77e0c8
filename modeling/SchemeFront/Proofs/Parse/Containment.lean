import SchemeFront.Parse.Body
import SchemeFront.Proofs.Standing

set_option autoImplicit false

/-! # Spans of nodes

The span of every node of a program contains the spans of the nodes right below it, whatever the
tokens are that the program was parsed from (`Parse.nests_of_program`). It is enough that the
starts of the tokens never decrease and that no token ends behind a bracket that is closed later:
a node stands on the tokens it was read from (`Node.Lies`), and these are between the brackets
that give the node around it its span.
-/

namespace SchemeFront

open Token

variable {lo hi : Int} {ts : List Token}

/-! ## What is given for the tokens that were read -/

variable {α β : Type} {ctx : Context} {pos : Position}

/-- The answer to reading on from where `ts` is left: `D` holds of what was read and the tokens
it was read from. A failure has not come back behind them. -/
def Reply.Gives (ts : List Token) (D : α → List Token → Prop) : Reply α → Prop
  | done a _ after => ∃ xs, ts = xs ++ after.rest ∧ D a xs
  | failed _ _ after => after.rest <:+ ts
  | fault _ _ _ => True

namespace Reply.Gives

variable {D E : α → List Token → Prop} {r : Reply α}

theorem mono (h : r.Gives ts D) (hD : ∀ a xs, xs <:+: ts → D a xs → E a xs) : r.Gives ts E := by
  cases r with
  | done a trace after =>
      obtain ⟨xs, hts, ha⟩ := h
      exact ⟨xs, hts, hD a xs ⟨[], after.rest, by rw [hts]; rfl⟩ ha⟩
  | failed why trace after => exact h
  | fault fault => trivial

theorem behind (h : r.Gives ts D) (trace : Trace) : (r.behind trace).Gives ts D := by
  cases r <;> exact h

theorem leaving (h : r.Gives ts D) (counted : Bool) : (r.leaving counted).Gives ts D := by
  cases r <;> exact h

end Reply.Gives

namespace Parse

variable {p : Parse α} {g : α → Parse β} {D : α → List Token → Prop} {E : β → List Token → Prop}

/-- One parser after the other: the tokens that both have read are put together. -/
theorem gives_bind (h : Orderly lo hi pos.rest) (hp : (p ctx pos).Gives pos.rest D)
    (hg : ∀ a xs after, Orderly lo hi after.rest → D a xs →
      (g a ctx after).Gives after.rest fun b ys => E b (xs ++ ys)) :
    ((p >>= g) ctx pos).Gives pos.rest E := by
  rw [bind_apply]
  cases hr : p ctx pos with
  | done a trace after =>
      rw [hr] at hp
      obtain ⟨xs, hxs, ha⟩ := hp
      have hafter : Orderly lo hi after.rest :=
        h.of_sublist (by rw [hxs]; exact List.sublist_append_right xs after.rest)
      have hga := hg a xs after hafter ha
      dsimp only
      cases hb : g a ctx after with
      | done b more last =>
          rw [hb] at hga
          obtain ⟨ys, hys, hE⟩ := hga
          exact ⟨xs ++ ys, by rw [hxs, hys, List.append_assoc], hE⟩
      | failed why more last =>
          rw [hb] at hga
          rw [hxs]
          exact hga.trans (List.suffix_append xs after.rest)
      | fault fault => trivial
  | failed why trace after =>
      rw [hr] at hp
      exact hp
  | fault fault => trivial

theorem gives_pure {a : α} (ha : D a []) : ((pure a : Parse α) ctx pos).Gives pos.rest D :=
  ⟨[], rfl, ha⟩

theorem gives_map {f : α → β} (hp : (p ctx pos).Gives pos.rest fun a xs => E (f a) xs) :
    ((f <$> p) ctx pos).Gives pos.rest E := by
  rw [← bind_pure_comp, bind_apply]
  cases hr : p ctx pos with
  | done a trace after =>
      rw [hr] at hp
      exact hp
  | failed why trace after =>
      rw [hr] at hp
      exact hp
  | fault fault => trivial

theorem gives_fail {expected : List String} :
    ((fail expected : Parse α) ctx pos).Gives pos.rest D :=
  List.suffix_refl pos.rest

theorem gives_advance {D : Token → List Token → Prop} (hD : ∀ t ∈ pos.rest[0]?, D t [t]) :
    (advance ctx pos).Gives pos.rest D := by
  cases hrest : pos.rest with
  | nil =>
      rw [advance, hrest]
      trivial
  | cons t rest =>
      rw [advance, hrest]
      exact ⟨[t], rfl, hD t (by simp [hrest])⟩

theorem gives_close : (close ctx pos).Gives pos.rest fun c xs => c.closes = true ∧ xs = [c] := by
  rw [close, nextCloses_bind_apply]
  split
  · rename_i hcloses
    refine gives_advance ?_
    intro c hc
    rw [hc] at hcloses
    exact ⟨hcloses, rfl⟩
  · exact gives_fail

/-! ## Names -/

theorem gives_identifier (h : Orderly lo hi pos.rest) (also : List String) :
    (identifier also ctx pos).Gives pos.rest fun i xs => (Node.identifier i).Lies lo hi xs := by
  rw [identifier, peek_bind_apply]
  cases hname : pos.rest[0]?.bind Token.name? with
  | none => exact gives_fail
  | some name =>
      refine gives_bind h (gives_advance (D := fun t xs => xs = [t] ∧ t ∈ pos.rest) ?_) ?_
      · intro t ht
        exact ⟨rfl, List.mem_of_getElem? ht⟩
      · rintro t xs after - ⟨rfl, ht⟩
        refine gives_pure (.of_childless ?_ ?_ rfl)
        · exact h.of_sublist (List.singleton_sublist.2 ht)
        · exact ⟨⟨t, by simp, Int.le_refl _⟩, t, by simp, Int.le_refl _⟩

theorem gives_identifiers (h : Orderly lo hi pos.rest) (rounds : Nat) :
    (identifiers rounds ctx pos).Gives pos.rest fun is xs =>
      ∀ i ∈ is, (Node.identifier i).Lies lo hi xs := by
  induction rounds generalizing pos with
  | zero => trivial
  | succ rounds ih =>
      rw [identifiers, nextCloses_bind_apply]
      split
      · refine gives_bind h (gives_advance (D := fun _ _ => True) fun _ _ => trivial) ?_
        intro _ _ _ _ _
        exact gives_pure (by simp)
      · refine gives_bind h (gives_identifier h _) ?_
        intro first xs after h' hfirst
        refine gives_bind h' (ih h') ?_
        intro more ys _ _ hmore
        refine gives_pure ?_
        intro i hi
        rcases List.mem_cons.1 hi with rfl | hi
        · exact hfirst.mono (by simp)
        · exact (hmore i hi).mono (by simp)

theorem gives_parameters (h : Orderly lo hi pos.rest) :
    (parameters ctx pos).Gives pos.rest fun is xs =>
      ∀ i ∈ is, (Node.identifier i).Lies lo hi xs := by
  rw [parameters]
  refine gives_bind h (gives_identifiers h _) ?_
  intro params xs _ _ hparams
  rw [distinct]
  cases repeated? [] params with
  | none => exact gives_pure (by simpa using hparams)
  | some i => exact List.suffix_refl _

theorem gives_formals (h : Orderly lo hi pos.rest) :
    (formals ctx pos).Gives pos.rest fun found xs =>
      ∀ i ∈ found.2, (Node.identifier i).Lies lo hi xs := by
  rw [formals, peek_bind_apply]
  cases pos.rest[0]? with
  | none => exact gives_fail
  | some t =>
      dsimp only
      split
      · refine gives_bind h (gives_identifier h _) ?_
        intro name xs _ _ hname
        exact gives_pure (by simpa using hname)
      · split
        · refine gives_bind h (gives_advance (D := fun _ _ => True) fun _ _ => trivial) ?_
          intro _ xs after h' _
          refine gives_bind h' (gives_parameters h') ?_
          intro names ys _ _ hnames
          refine gives_pure ?_
          intro i hi
          exact (hnames i hi).mono (by simp)
        · exact gives_fail

/-! ## Forms -/

/-- Skipping gives a span that stands on the tokens that were skipped, if there are any. -/
theorem gives_skip (start : List Token) :
    (skip start ctx pos).Gives start fun s xs =>
      s.StandsOn xs ∨ start = [] ∧ s = ctx.endOfInput := by
  unfold skip
  generalize hcount : max (extent start) (start.length - pos.rest.length) = count
  dsimp only
  cases hs : cover (start.take count) ctx.endOfInput with
  | error fault => trivial
  | ok s =>
      refine ⟨start.take count, (List.take_append_drop count start).symm, ?_⟩
      by_cases hne : start = []
      · subst hne
        rw [List.take_nil] at hs
        cases hs
        exact .inr ⟨rfl, rfl⟩
      · have hpos := extent_pos hne
        refine .inl (Span.standsOn_of_cover ?_ hs)
        intro hnil
        rcases List.take_eq_nil_iff.1 hnil with hzero | hnil
        · omega
        · exact hne hnil

theorem gives_recover (start : List Token) (d : Diagnostic) :
    ((recover start d : Parse (Parsed α)) ctx pos).Gives start fun p xs =>
      ∃ s, p = .broken s ∧ (s.StandsOn xs ∨ start = [] ∧ s = ctx.endOfInput) := by
  simp only [recover, bind_apply, note]
  refine Reply.Gives.behind ?_ _
  have key : (skip start ctx pos).Gives start _ := gives_skip start
  cases hr : skip start ctx pos with
  | done s trace after =>
      rw [hr] at key
      obtain ⟨xs, hxs, hs⟩ := key
      exact ⟨xs, hxs, s, rfl, hs⟩
  | failed why trace after =>
      rw [hr] at key
      exact key
  | fault fault => trivial

end Parse

/-- What was parsed lies on its tokens, as does the span of what could not be parsed. -/
def Parsed.Lies (f : α → Node) (lo hi : Int) (p : Parsed α) (xs : List Token) : Prop :=
  match p with
  | .whole a => (f a).Lies lo hi xs
  | .broken s => s.StandsOn xs

namespace Parse

/-- What is skipped from a bracket on stands on tokens. -/
theorem gives_recover_cons {f : α → Node} (opened : Token) (tail : List Token) (d : Diagnostic) :
    ((recover (opened :: tail) d : Parse (Parsed α)) ctx pos).Gives (opened :: tail)
      (Parsed.Lies f lo hi) := by
  refine (gives_recover (opened :: tail) d).mono ?_
  rintro p xs - ⟨s, rfl, hs | ⟨hnil, -⟩⟩
  · exact hs
  · cases hnil

/-- A form stands on its tokens, from its bracket on. -/
theorem gives_form (construct : String) {inner : Token → Parse α} {f : α → Node}
    (h : Orderly lo hi pos.rest)
    (hinner : ∀ opened inside, Orderly lo hi inside.rest →
      (inner opened ctx inside).Gives inside.rest fun a xs => (f a).LiesBehind lo hi opened xs) :
    (form construct inner ctx pos).Gives pos.rest (Parsed.Lies f lo hi) := by
  unfold form
  cases hrest : pos.rest with
  | nil => trivial
  | cons opened tail =>
      dsimp only
      split
      · exact gives_recover_cons opened tail _
      · refine (Reply.Gives.behind ?_ _).leaving _
        rw [hrest] at h
        have key := hinner opened (pos.enter (ctx.counts pos opened) tail)
          (h.of_sublist (List.sublist_cons_self opened tail))
        unfold guarded
        cases hr : inner opened ctx (pos.enter (ctx.counts pos opened) tail) with
        | done a trace after =>
            rw [hr] at key
            obtain ⟨xs, hxs, ha⟩ := key
            rw [Position.enter_rest] at hxs
            refine ⟨opened :: xs, by rw [hxs]; rfl, ha (h.of_sublist ?_)⟩
            rw [hxs]
            exact (List.sublist_append_left _ _).cons_cons opened
        | failed why trace after =>
            rw [hr] at key
            dsimp only
            split
            · exact List.IsSuffix.trans key (List.suffix_cons opened tail)
            · rw [hrest]
              exact (gives_recover_cons opened tail _).behind trace
        | fault fault => trivial

end Parse

/-- The parsers for what is inside brackets give nodes that lie on their tokens. -/
structure Inner.Gives (lo hi : Int) (ctx : Context) (inner : Inner) : Prop where
  expr : ∀ also pos, Orderly lo hi pos.rest → (inner.expr also ctx pos).Gives pos.rest
    fun e xs => (Node.expr e).Lies lo hi xs
  body : ∀ pos, Orderly lo hi pos.rest → (inner.body ctx pos).Gives pos.rest
    fun b xs => ∀ n ∈ b.children, n.Lies lo hi xs

namespace Parse

variable {inner : Inner} {opened : Token}

/-- A word or bracket that is read as such. -/
theorem gives_advance_any : (advance ctx pos).Gives pos.rest fun _ _ => True :=
  gives_advance fun _ _ => trivial

/-- The last step inside a form: its closing bracket. -/
theorem gives_closed {g : Token → α} {D : α → List Token → Prop}
    (hD : ∀ closed rest, pos.rest = closed :: rest → closed.closes = true →
      D (g closed) [closed]) :
    ((do let closed ← close; return g closed : Parse α) ctx pos).Gives pos.rest D := by
  rw [bind_apply]
  have hclose : (close ctx pos).Gives pos.rest _ := gives_close
  cases hr : close ctx pos with
  | done closed trace after =>
      rw [hr] at hclose
      obtain ⟨xs, hxs, hc, rfl⟩ := hclose
      exact ⟨[closed], hxs, hD closed after.rest hxs hc⟩
  | failed why trace after =>
      rw [hr] at hclose
      exact hclose
  | fault fault => trivial

theorem gives_alternative (hin : inner.Gives lo hi ctx) (h : Orderly lo hi pos.rest) :
    (alternative inner ctx pos).Gives pos.rest fun alter xs =>
      ∀ e ∈ alter, (Node.expr e).Lies lo hi xs := by
  rw [alternative, nextCloses_bind_apply]
  split
  · exact gives_pure (by simp)
  · refine gives_map ((hin.expr _ _ h).mono ?_)
    intro e xs _ he
    simpa using he

theorem mem_children_conditional {m : Node} {s : Span} {test conseq : Expr}
    {alter : Option Expr} : m ∈ (Expr.conditional s test conseq alter).children ↔
      m = .expr test ∨ m = .expr conseq ∨ ∃ e ∈ alter, m = .expr e := by
  cases alter <;> simp [Expr.children]

theorem gives_conditional (hin : inner.Gives lo hi ctx) (h : Orderly lo hi pos.rest) :
    (conditional inner opened ctx pos).Gives pos.rest fun e xs =>
      (Node.expr e).LiesBehind lo hi opened xs := by
  rw [conditional]
  refine gives_bind h gives_advance_any ?_
  intro _ ws _ h _
  refine gives_bind h (hin.expr _ _ h) ?_
  intro test xs _ h htest
  refine gives_bind h (hin.expr _ _ h) ?_
  intro conseq ys _ h hconseq
  refine gives_bind h (gives_alternative hin h) ?_
  intro alter zs _ h halter
  refine gives_closed fun closed _ _ hc => ?_
  refine .of_children (ws ++ xs ++ ys ++ zs) (by simp) hc rfl ?_
  intro m hm
  rcases mem_children_conditional.1 hm with rfl | rfl | ⟨e, he, rfl⟩
  · exact htest.mono fun t ht => by simp [ht]
  · exact hconseq.mono fun t ht => by simp [ht]
  · exact (halter e he).mono fun t ht => by simp [ht]

theorem gives_procedure (hin : inner.Gives lo hi ctx) (h : Orderly lo hi pos.rest) :
    (procedure inner opened ctx pos).Gives pos.rest fun e xs =>
      (Node.expr e).LiesBehind lo hi opened xs := by
  rw [procedure]
  refine gives_bind h gives_advance_any ?_
  intro _ ws _ h _
  refine gives_bind h (gives_formals h) ?_
  rintro ⟨variadic, params⟩ xs _ h hparams
  refine gives_bind h (hin.body _ h) ?_
  intro body ys _ h hbody
  refine gives_closed fun closed _ _ hc => ?_
  refine .of_children (ws ++ xs ++ ys) (by simp) hc rfl ?_
  intro m hm
  rcases List.mem_append.1 hm with hm | hm
  · obtain ⟨i, hi, rfl⟩ := List.mem_map.1 hm
    exact (hparams i hi).mono fun t ht => by simp [ht]
  · exact (hbody m hm).mono fun t ht => by simp [ht]

theorem gives_assignment (hin : inner.Gives lo hi ctx) (h : Orderly lo hi pos.rest) :
    (assignment inner opened ctx pos).Gives pos.rest fun e xs =>
      (Node.expr e).LiesBehind lo hi opened xs := by
  rw [assignment]
  refine gives_bind h gives_advance_any ?_
  intro _ ws _ h _
  refine gives_bind h (gives_identifier h _) ?_
  intro target xs _ h htarget
  refine gives_bind h (hin.expr _ _ h) ?_
  intro value ys _ h hvalue
  refine gives_closed fun closed _ _ hc => ?_
  refine .of_children (ws ++ xs ++ ys) (by simp) hc rfl ?_
  intro m hm
  rcases List.mem_pair.1 hm with rfl | rfl
  · exact htarget.mono fun t ht => by simp [ht]
  · exact hvalue.mono fun t ht => by simp [ht]

theorem gives_arguments (hin : inner.Gives lo hi ctx) (h : Orderly lo hi pos.rest)
    (rounds : Nat) : (arguments inner rounds ctx pos).Gives pos.rest fun es xs =>
      ∀ e ∈ es, (Node.expr e).Lies lo hi xs := by
  induction rounds generalizing pos with
  | zero => trivial
  | succ rounds ih =>
      rw [arguments, nextCloses_bind_apply]
      split
      · exact gives_pure (by simp)
      · refine gives_bind h (hin.expr _ _ h) ?_
        intro first xs _ h hfirst
        refine gives_bind h (ih h) ?_
        intro more ys _ _ hmore
        refine gives_pure ?_
        intro e he
        rcases List.mem_cons.1 he with rfl | he
        · exact hfirst.mono (by simp)
        · exact (hmore e he).mono (by simp)

theorem gives_call (hin : inner.Gives lo hi ctx) (h : Orderly lo hi pos.rest) :
    (call inner opened ctx pos).Gives pos.rest fun e xs =>
      (Node.expr e).LiesBehind lo hi opened xs := by
  rw [call]
  refine gives_bind h (hin.expr _ _ h) ?_
  intro operator xs _ h hoperator
  refine gives_bind h (gives_arguments hin h _) ?_
  intro args ys _ h hargs
  refine gives_closed fun closed _ _ hc => ?_
  refine .of_children (xs ++ ys) (by simp) hc rfl ?_
  intro m hm
  rcases List.mem_cons.1 hm with rfl | hm
  · exact hoperator.mono fun t ht => by simp [ht]
  · obtain ⟨e, he, rfl⟩ := List.mem_map.1 hm
    exact (hargs e he).mono fun t ht => by simp [ht]

theorem gives_formOf (hin : inner.Gives lo hi ctx) (h : Orderly lo hi pos.rest)
    (head : Option Token) : ((formOf inner head).2 opened ctx pos).Gives pos.rest fun e xs =>
      (Node.expr e).LiesBehind lo hi opened xs := by
  unfold formOf
  split
  · exact gives_conditional hin h
  · exact gives_procedure hin h
  · exact gives_assignment hin h
  · show (strayDefinition opened ctx pos).Gives pos.rest _
    rw [strayDefinition, peek_bind_apply]
    cases pos.rest[0]? with
    | none => trivial
    | some word => exact List.suffix_refl _
  · exact gives_call hin h

/-! ## Expressions and definitions -/

theorem gives_expression (hin : inner.Gives lo hi ctx) (h : Orderly lo hi pos.rest)
    (also : List String) : (expression inner also ctx pos).Gives pos.rest fun e xs =>
      (Node.expr e).Lies lo hi xs := by
  rw [expression, peek_bind_apply]
  cases hnext : pos.rest[0]? with
  | none => exact gives_fail
  | some t =>
      have hmem : [t].Sublist pos.rest := List.singleton_sublist.2 (List.mem_of_getElem? hnext)
      obtain ⟨l, s⟩ := t
      cases l with
      | atom a =>
          refine gives_bind h (gives_advance (D := fun _ xs => xs = [⟨.atom a, s⟩]) ?_) ?_
          · intro t ht
            rw [hnext] at ht
            cases ht
            rfl
          · rintro t xs after - rfl
            refine gives_pure (.of_childless (h.of_sublist hmem) ?_ rfl)
            exact ⟨⟨_, List.mem_singleton_self _, Int.le_refl _⟩, _,
              List.mem_singleton_self _, Int.le_refl _⟩
      | keyword k =>
          cases k with
          | opening =>
              show (compound inner ctx pos).Gives pos.rest _
              rw [compound, peek_bind_apply]
              have hform := gives_form (f := Node.expr) (formOf inner pos.rest[1]?).1 h
                fun _ _ hinside => gives_formOf hin hinside pos.rest[1]?
              refine gives_map (hform.mono ?_)
              intro p xs hinfix hp
              cases p with
              | whole e => exact hp
              | broken s => exact .of_childless (h.of_sublist hinfix.sublist) hp rfl
          | _ => exact gives_fail

theorem gives_namedValue (hin : inner.Gives lo hi ctx) (h : Orderly lo hi pos.rest)
    (front : List Token) : (namedValue inner opened ctx pos).Gives pos.rest fun d xs =>
      (Node.definition d).LiesBehind lo hi opened (front ++ xs) := by
  rw [namedValue]
  refine gives_bind h (gives_identifier h _) ?_
  intro name xs _ h hname
  refine gives_bind h (hin.expr _ _ h) ?_
  intro value ys _ h hvalue
  refine gives_closed fun closed _ _ hc => ?_
  refine .of_children (front ++ xs ++ ys) (by simp) hc rfl ?_
  intro m hm
  rcases List.mem_pair.1 hm with rfl | rfl
  · exact hname.mono fun t ht => by simp [ht]
  · exact hvalue.mono fun t ht => by simp [ht]

/-- The procedure of a definition with parameters has the span of the definition. -/
theorem gives_namedProcedure (hin : inner.Gives lo hi ctx) (h : Orderly lo hi pos.rest)
    (front : List Token) : (namedProcedure inner opened ctx pos).Gives pos.rest fun d xs =>
      (Node.definition d).LiesBehind lo hi opened (front ++ xs) := by
  rw [namedProcedure]
  refine gives_bind h gives_advance_any ?_
  intro _ vs _ h _
  refine gives_bind h (gives_identifier h _) ?_
  intro name ws _ h hname
  refine gives_bind h (gives_parameters h) ?_
  intro params xs _ h hparams
  refine gives_bind h (hin.body _ h) ?_
  intro body ys _ h hbody
  refine gives_closed fun closed _ _ hc => ?_
  have hvalue : (Node.expr (.procedure (opened.span.join closed.span) false params body)).LiesBehind
      lo hi opened (front ++ vs ++ ws ++ xs ++ ys ++ [closed]) := by
    refine .of_children _ rfl hc rfl ?_
    intro m hm
    rcases List.mem_append.1 hm with hm | hm
    · obtain ⟨i, hi, rfl⟩ := List.mem_map.1 hm
      exact (hparams i hi).mono fun t ht => by simp [ht]
    · exact (hbody m hm).mono fun t ht => by simp [ht]
  intro hord
  have hxs : front ++ (vs ++ (ws ++ (xs ++ (ys ++ [closed])))) =
      front ++ vs ++ ws ++ xs ++ ys ++ [closed] := by simp
  rw [hxs] at hord ⊢
  refine .of_brackets hord hc rfl ?_
  intro m hm
  rcases List.mem_pair.1 hm with rfl | rfl
  · exact hname.mono fun t ht => by simp [ht]
  · exact hvalue hord

/-- A definition reaches from its bracket to the one that closes it. -/
theorem gives_definition (hin : inner.Gives lo hi ctx) (h : Orderly lo hi pos.rest) :
    (definition inner opened ctx pos).Gives pos.rest fun d xs =>
      (Node.definition d).LiesBehind lo hi opened xs := by
  rw [definition]
  refine gives_bind h gives_advance_any ?_
  intro _ ws after h _
  rw [peek_bind_apply]
  cases after.rest[0]? with
  | none => exact gives_fail
  | some t =>
      dsimp only
      split
      · exact gives_namedValue hin h ws
      · split
        · exact gives_namedProcedure hin h ws
        · exact gives_fail

end Parse

/-! ## Bodies -/

/-- The node of an item, if it has one. -/
def BodyItem.node? : BodyItem → Option Node
  | .definition d => some (.definition d)
  | .expression e => some (.expr e)
  | .nothing => none

namespace Parse

variable {inner : Inner}

theorem gives_item {N : Node → List Token → Prop} {expr : Parse Expr}
    (hin : inner.Gives lo hi ctx) (h : Orderly lo hi pos.rest)
    (hN : ∀ n xs, n.Lies lo hi xs → N n xs)
    (hexpr : (expr ctx pos).Gives pos.rest fun e xs => N (.expr e) xs) :
    (item inner expr ctx pos).Gives pos.rest fun i xs => ∀ n ∈ i.node?, N n xs := by
  rw [item, atDefinition]
  simp only [bind_assoc, peek_bind_apply, pure_bind]
  split
  · refine gives_map ?_
    have hform := gives_form (f := Node.definition) "definition" h
      fun _ _ hinside => gives_definition hin hinside
    refine hform.mono ?_
    intro p xs hinfix hp n hn
    cases p with
    | whole d =>
        cases hn
        exact hN _ _ hp
    | broken s =>
        cases hn
        exact hN _ _ (.of_childless (h.of_sublist hinfix.sublist) hp rfl)
  · refine gives_map (hexpr.mono ?_)
    rintro e xs - he n hn
    cases hn
    exact he

/-- The nodes that items were sorted into. -/
def sortedNodes (parts : List Definition × List Expr) : List Node :=
  parts.1.map .definition ++ parts.2.map .expr

/-- A node is put in front of those that later items were sorted into. -/
theorem gives_put {N : Node → List Token → Prop} {later : Parse (List Definition × List Expr)}
    {xs : List Token} {n : Node} (hmono : ∀ n xs ys, xs ⊆ ys → N n xs → N n ys)
    (h : Orderly lo hi pos.rest) (hn : N n xs)
    (hlater : (later ctx pos).Gives pos.rest fun parts ys => ∀ m ∈ sortedNodes parts, N m ys)
    (put : List Definition × List Expr → List Definition × List Expr)
    (hput : ∀ parts, ∀ m ∈ sortedNodes (put parts), m = n ∨ m ∈ sortedNodes parts) :
    ((later >>= fun parts => pure (put parts)) ctx pos).Gives pos.rest fun parts ys =>
      ∀ m ∈ sortedNodes parts, N m (xs ++ ys) := by
  refine gives_bind h hlater ?_
  intro parts ys _ _ hparts
  refine gives_pure ?_
  intro m hm
  rw [List.append_nil]
  rcases hput parts m hm with rfl | hm
  · exact hmono _ _ _ (List.subset_append_left xs ys) hn
  · exact hmono _ _ _ (List.subset_append_right xs ys) (hparts m hm)

/-- What holds of the node of each item holds of all nodes they are sorted into. -/
theorem gives_items {N : Node → List Token → Prop} {next : Bool → Parse (Option BodyItem)}
    (hmono : ∀ n xs ys, xs ⊆ ys → N n xs → N n ys)
    (hlate : ∀ d xs, N (.definition d) xs → N (.expr (.error d.span)) xs)
    (hnext : ∀ started pos, Orderly lo hi pos.rest →
      (next started ctx pos).Gives pos.rest fun i? xs => ∀ i ∈ i?, ∀ n ∈ i.node?, N n xs)
    (h : Orderly lo hi pos.rest) (started seen : Bool) (rounds : Nat) :
    (items next started seen rounds ctx pos).Gives pos.rest fun parts xs =>
      ∀ n ∈ sortedNodes parts, N n xs := by
  induction rounds generalizing started seen pos with
  | zero => trivial
  | succ rounds ih =>
      rw [items]
      refine gives_bind h (hnext started _ h) ?_
      intro i? xs after h hi
      cases i? with
      | none => exact gives_pure (by simp [sortedNodes])
      | some i =>
          have hi := hi i rfl
          cases i with
          | nothing =>
              exact (ih h started seen).mono fun parts ys _ hparts n hn =>
                hmono _ _ _ (List.subset_append_right xs ys) (hparts n hn)
          | expression e =>
              refine gives_put hmono h (hi _ rfl) (ih h _ _)
                (fun parts => (parts.1, e :: parts.2)) ?_
              intro parts m hm
              simpa [sortedNodes, or_left_comm] using hm
          | definition d =>
              dsimp only
              split
              · refine Reply.Gives.behind (gives_put hmono h (hlate d xs (hi _ rfl)) (ih h _ _)
                  (fun parts => (parts.1, .error d.span :: parts.2)) ?_) _
                intro parts m hm
                simpa [sortedNodes, or_left_comm] using hm
              · refine gives_put hmono h (hi _ rfl) (ih h _ _)
                  (fun parts => (d :: parts.1, parts.2)) ?_
                intro parts m hm
                simpa [sortedNodes] using hm

/-- The nodes of a body are those that its items were sorted into. -/
theorem children_of_body? {defs : List Definition} {exprs : List Expr} {b : Body}
    (hb : body? defs exprs = some b) : b.children = sortedNodes (defs, exprs) := by
  obtain ⟨last, hlast, rfl⟩ := Option.map_eq_some_iff.1 hb
  have hexprs := List.dropLast_append_getLast? last hlast
  have hsplit : exprs.map Node.expr = exprs.dropLast.map .expr ++ [.expr last] := by
    conv_lhs => rw [← hexprs]
    simp
  rw [sortedNodes, hsplit, ← List.append_assoc]
  rfl

theorem mem_children_of_body? {defs : List Definition} {exprs : List Expr} {b : Body} {n : Node}
    (hb : body? defs exprs = some b) (hn : n ∈ b.children) : n ∈ sortedNodes (defs, exprs) :=
  children_of_body? hb ▸ hn

theorem gives_bracketedBody (hin : inner.Gives lo hi ctx) (h : Orderly lo hi pos.rest) :
    (bracketedBody inner ctx pos).Gives pos.rest fun b xs =>
      ∀ n ∈ b.children, n.Lies lo hi xs := by
  rw [bracketedBody]
  have hitems (rounds : Nat) : (items (innerItem inner) false false rounds ctx pos).Gives pos.rest
      fun parts xs => ∀ n ∈ sortedNodes parts, n.Lies lo hi xs := by
    refine gives_items (fun _ _ _ hs hn => hn.mono hs) (fun _ _ hd => hd.late) ?_ h false false _
    intro started pos h
    rw [innerItem, peek_bind_apply]
    cases pos.rest[0]? with
    | none => exact gives_pure (by simp)
    | some t =>
        dsimp only
        split
        · exact gives_pure (by simp)
        · refine gives_map ((gives_item hin h (fun _ _ hn => hn) (gives_expression hin h _)).mono ?_)
          intro i xs _ hi i' hi'
          cases hi'
          exact hi
  refine gives_bind h (hitems _) ?_
  rintro ⟨defs, exprs⟩ xs _ _ hparts
  dsimp only
  cases hb : body? defs exprs with
  | none => exact gives_fail
  | some b =>
      refine gives_pure ?_
      rw [List.append_nil]
      exact fun n hn => hparts n (mem_children_of_body? hb hn)

theorem gives_nested (level : Nat) : (nested level).Gives lo hi ctx := by
  induction level with
  | zero => exact ⟨fun _ _ _ => trivial, fun _ _ => trivial⟩
  | succ level ih => exact ⟨fun also _ h => gives_expression ih h also,
      fun _ h => gives_bracketedBody ih h⟩

/-! ## Programs -/

/-- An expression that could not be parsed stands on what was skipped, or at the end of the
input. -/
theorem gives_recovered (hin : inner.Gives lo hi ctx) (h : Orderly lo hi pos.rest)
    (hstart : lo ≤ ctx.endOfInput.start) (hstop : ctx.endOfInput.stop ≤ hi) :
    (recovered (expression inner []) ctx pos).Gives pos.rest fun e _ =>
      (Node.expr e).NestsAll lo hi := by
  have key := gives_expression hin h []
  unfold recovered
  cases hr : expression inner [] ctx pos with
  | done e trace after =>
      rw [hr] at key
      exact key.mono fun _ _ _ he => he.nests
  | failed why trace after =>
      rw [hr] at key
      obtain ⟨zs, hzs⟩ := key
      have hafter : Orderly lo hi after.rest :=
        h.of_sublist (by rw [← hzs]; exact List.sublist_append_right zs after.rest)
      have hskip : ((ofParsed <$> recover after.rest why : Parse Expr) ctx after).Gives after.rest
          fun e _ => (Node.expr e).NestsAll lo hi := by
        refine gives_map ((gives_recover after.rest why).mono ?_)
        rintro p xs hinfix ⟨s, rfl, hs | ⟨-, rfl⟩⟩
        · obtain ⟨hlow, hhigh⟩ := hs.bounds (hafter.of_sublist hinfix.sublist)
          exact Node.nestsAll_error hlow hhigh
        · exact Node.nestsAll_error hstart hstop
      refine Reply.Gives.behind ?_ trace
      cases hr : (ofParsed <$> recover after.rest why : Parse Expr) ctx after with
      | done e more last =>
          rw [hr] at hskip
          obtain ⟨xs, hxs, he⟩ := hskip
          exact ⟨zs ++ xs, by rw [← hzs, hxs, List.append_assoc], he⟩
      | failed why more last =>
          rw [hr] at hskip
          exact hskip.trans ⟨zs, hzs⟩
      | fault fault => trivial
  | fault fault => trivial

/-- An item of a program nests. -/
theorem gives_outerItem (hin : inner.Gives lo hi ctx) (h : Orderly lo hi pos.rest)
    (hstart : lo ≤ ctx.endOfInput.start) (hstop : ctx.endOfInput.stop ≤ hi) (started : Bool) :
    (outerItem inner started ctx pos).Gives pos.rest fun i? _ =>
      ∀ i ∈ i?, ∀ n ∈ i.node?, n.NestsAll lo hi := by
  rw [outerItem, peek_bind_apply]
  cases pos.rest[0]? with
  | none => exact gives_pure (by simp)
  | some t =>
      dsimp only
      split
      · rw [bind_apply]
        refine Reply.Gives.behind ?_ _
        refine gives_bind h gives_advance_any ?_
        intro _ _ _ _ _
        exact gives_pure (by simp [BodyItem.node?])
      · refine gives_map ((gives_item hin h (fun _ _ hn => hn.nests)
          (gives_recovered hin h hstart hstop)).mono ?_)
        intro i xs _ hi i' hi'
        cases hi'
        exact hi

/-- The program that items make nests if they do. Without expressions it has one at the end of
the input. -/
theorem gives_programOf {defs : List Definition} {exprs : List Expr}
    (hnodes : ∀ n ∈ sortedNodes (defs, exprs), n.NestsAll lo hi)
    (hstart : lo ≤ ctx.endOfInput.start) (hstop : ctx.endOfInput.stop ≤ hi) :
    (programOf defs exprs ctx pos).Gives pos.rest
      fun p _ => ∀ n ∈ p.children, n.NestsAll lo hi := by
  unfold programOf
  cases hb : body? defs exprs with
  | some b => exact gives_pure fun n hn => hnodes n (mem_children_of_body? hb hn)
  | none =>
      refine ⟨[], rfl, ?_⟩
      intro n hn
      simp only [Body.children, List.map_nil, List.append_nil, List.mem_append,
        List.mem_singleton] at hn
      rcases hn with hn | rfl
      · exact hnodes n (List.mem_append_left _ hn)
      · exact Node.nestsAll_error hstart hstop

/-- **The spans of a program nest.** Every node of a program lies between two offsets, and
contains the nodes right below it, if the tokens and the end of the input lie between them and
the tokens are in order. -/
theorem nests_of_program {p : Program} {trace : Trace} {after : Position}
    (h : Orderly lo hi pos.rest) (hstart : lo ≤ ctx.endOfInput.start)
    (hstop : ctx.endOfInput.stop ≤ hi) (hdone : program ctx pos = .done p trace after) :
    ∀ n ∈ p.nodes, n.Nests lo hi := by
  have hitems (rounds : Nat) :
      (items (outerItem (nested pos.rest.length)) false false rounds ctx pos).Gives pos.rest
        fun parts _ => ∀ n ∈ sortedNodes parts, n.NestsAll lo hi :=
    gives_items (fun _ _ _ _ hn => hn) (fun _ _ hd => hd.late)
      (fun started _ h => gives_outerItem (gives_nested _) h hstart hstop started) h false false _
  have hprogram : (program ctx pos).Gives pos.rest fun p _ =>
      ∀ n ∈ p.children, n.NestsAll lo hi := by
    rw [program]
    refine gives_bind h (hitems _) ?_
    rintro ⟨defs, exprs⟩ xs after _ hparts
    exact gives_programOf hparts hstart hstop
  rw [hdone] at hprogram
  obtain ⟨xs, -, hp⟩ := hprogram
  intro n hn
  obtain ⟨c, hc, hn⟩ := Body.mem_nodes_iff.1 hn
  exact hp c hc n hn

end Parse

end SchemeFront
