import SchemeFront.Proofs.Parse.Findings
import SchemeFront.Proofs.Parse.Outcome
import SchemeFront.Proofs.Parse.Units
import SchemeFront.Proofs.Token.Strays

set_option autoImplicit false

/-! # What is found in a program

Outside all forms the parser says three things more than inside: that a closing bracket closes
nothing, that a form is never closed, and that there is no expression. The first is said of each
such bracket, in order; the second at most once, of the first form that is never closed, and
nothing is said behind it (`Parse.Heard`).
-/

namespace SchemeFront

open Token

variable {α β : Type} {ctx : Context} {pos : Position} {C F : List Token → Prop}
  {N : Diagnostic → Prop} {n : Nat}

/-! ## One form -/

/-- What is said of the form that begins with `t` if the input ends inside. -/
def Parse.cutOff (ctx : Context) (t : Token) (construct : String) : Diagnostic :=
  (Diagnostic.unclosed ctx.endOfInput (some "(") t.span).within construct

/-- What is found about the form `t :: ts` at top level: nothing but what is found inside of forms,
unless it is never closed. Then it is an `error`, and something is found. -/
structure Parse.HeardForm (ctx : Context) (N : Diagnostic → Prop) (t : Token) (ts : List Token)
    (error : Prop) (notes : List Diagnostic) : Prop where
  kinds : (∀ m ∈ notes, N m) ∨ t.opens = true ∧ Confined ts ∧ ∃ before construct,
    notes = before ++ [cutOff ctx t construct] ∧ ∀ m ∈ before, N m
  never : t.opens = true → Confined ts → notes ≠ [] ∧ error

namespace Parse

variable {opened : Token} {tail : List Token} {inner : Inner}

/-- The inside of a form is told by where it is closed. -/
theorem tells_of_closing {P : Lexeme → Prop} {Q S : α → Prop} {r : Reply α}
    (hfinds : r.Finds N C pos Q) (hclosing : r.Closing P pos S) :
    r.Tells (fun a notes => (∀ m ∈ notes, N m) ∧ Q a ∧ ¬ Confined pos.rest)
      (fun why notes => (∀ m ∈ notes, N m) ∧ N why ∧ (why.atEnd = true → Confined pos.rest)) := by
  cases r with
  | done a trace after =>
      obtain ⟨c, rest, -, hc, ⟨xs, hxs, hx⟩, -⟩ := hclosing
      refine ⟨hfinds.1, hfinds.2.2, ?_⟩
      rcases hx with hx | ⟨hnil, -⟩
      · rw [hxs]
        exact not_confined_of_balanced_append hx hc
      · cases hnil
  | failed why trace after =>
      obtain ⟨rest, -, ⟨xs, hxs, hx⟩, -, -, hend⟩ := hclosing
      refine ⟨hfinds.1, hfinds.2, ?_⟩
      intro h
      rw [hend h, List.append_nil] at hxs
      rw [hxs]
      exact hx
  | fault fault => trivial

/-- A form outside all others. -/
theorem tells_outermost {P : Lexeme → Prop} {Q S : α → Prop} (construct : String)
    {inner : Token → Parse α} (G : Ground ctx C F N) (hforms : pos.forms = [])
    (hrest : pos.rest = opened :: tail) (ho : opened.opens = true) (hC : C pos.rest)
    (hfinds : (inner opened ctx (pos.enter (ctx.counts pos opened) tail)).Finds N C
      (pos.enter (ctx.counts pos opened) tail) Q)
    (hclosing : (inner opened ctx (pos.enter (ctx.counts pos opened) tail)).Closing P
      (pos.enter (ctx.counts pos opened) tail) S) :
    (form construct inner ctx pos).Tells
      (fun p notes => p.Holds Q ∧ HeardForm ctx N opened tail (∃ s, p = .broken s) notes)
      (fun _ _ => False) := by
  refine (tells_form construct hrest (tells_of_closing hfinds hclosing)).mono ?_
    (fun _ _ h => h.2.2 hforms)
  rintro p notes (⟨a, rfl, hnotes, ha, hclosed⟩ | ⟨hp, hrecorded⟩)
  · exact ⟨ha, .inl hnotes, fun _ hconf => absurd hconf hclosed⟩
  · have hne : notes ≠ [] := by
      rcases hrecorded with ⟨-, rfl⟩ | ⟨why, before, -, -, rfl⟩ <;> simp
    refine ⟨by obtain ⟨s, rfl⟩ := hp; trivial, ?_, fun _ _ => ⟨hne, hp⟩⟩
    rcases hrecorded with ⟨-, rfl⟩ | ⟨why, before, ⟨hbefore, hwhy, hconf⟩, -, rfl⟩
    · left
      intro m hm
      rw [List.mem_singleton.1 hm]
      rw [hrest] at hC
      exact G.tooDeep opened tail construct hC ho
    · cases hend : why.atEnd with
      | true =>
          refine .inr ⟨ho, hconf hend, before, construct, ?_, hbefore⟩
          rw [explain, if_pos hend, G.atEnd why hwhy hend]
          rfl
      | false =>
          left
          intro m hm
          rcases List.mem_append.1 hm with hm | hm
          · exact hbefore m hm
          · rw [List.mem_singleton.1 hm, explain, if_neg (by simp [hend])]
            exact G.within why construct hwhy

theorem tells_map {p : Parse α} {f : α → β} {W : β → List Diagnostic → Prop}
    {E : Diagnostic → List Diagnostic → Prop}
    (h : (p ctx pos).Tells (fun a notes => W (f a) notes) E) :
    ((f <$> p) ctx pos).Tells W E := by
  rw [← bind_pure_comp, bind_apply]
  cases hr : p ctx pos with
  | done a trace after =>
      rw [hr] at h
      show W (f a) (trace.notes ++ [])
      rw [List.append_nil]
      exact h
  | failed why trace after =>
      rw [hr] at h
      exact h
  | fault fault => trivial

/-- An expression outside all forms, with what is found if there is none. -/
theorem tells_recovered (G : Ground ctx C F N) (h : inner.Finds ctx C F N n)
    (hs : Supply (fun _ => True) (n + 1) pos.rest) (hforms : pos.forms = [])
    (hrest : pos.rest = opened :: tail) (hC : C pos.rest) :
    (recovered (expression inner []) ctx pos).Tells
      (fun e notes => HeardForm ctx N opened tail (∃ s, e = .error s) notes)
      (fun _ _ => False) := by
  have hnext : pos.rest[0]? = some opened := by simp [hrest]
  have hfail : ∀ expected, endOfInputName ∉ expected → opened.opens = false →
      (((ofParsed <$> recover pos.rest (surprise ctx pos expected) : Parse Expr) ctx
        pos).behind ∅).Tells
          (fun e notes => HeardForm ctx N opened tail (∃ s, e = .error s) notes)
          (fun _ _ => False) := by
    intro expected hexpected ho
    rw [Reply.behind_empty]
    refine tells_map ((tells_recover pos.rest _).mono ?_ (fun _ _ h => h))
    rintro p notes ⟨-, rfl⟩
    refine ⟨.inl ?_, fun hopens => absurd hopens (by simp [ho])⟩
    intro m hm
    rw [List.mem_singleton.1 hm]
    exact G.surprise pos expected hC hexpected
  unfold recovered
  rw [expression, peek_bind_apply, hnext]
  obtain ⟨l, s⟩ := opened
  cases l with
  | atom a =>
      simp only [bind_apply, advance, hrest, pure_apply, Reply.behind]
      exact ⟨.inl (by simp), fun ho => by cases ho⟩
  | keyword k =>
      cases k with
      | opening =>
          have hhead : pos.rest[1]? = tail[0]? := by simp [hrest]
          have key := tells_outermost (formOf inner tail[0]?).1 G hforms hrest rfl hC
            (finds_formOf_inside G h hs hrest rfl (.inl hC))
            (closing_formOf (pos.enter _ tail) h.tidy (hs.tail hrest))
          have hcompound : (compound inner ctx pos).Tells
              (fun e notes => HeardForm ctx N ⟨.keyword .opening, s⟩ tail (∃ s, e = .error s) notes)
              (fun _ _ => False) := by
            rw [compound, peek_bind_apply, hhead]
            refine tells_map (key.mono ?_ (fun _ _ h => h))
            rintro p notes ⟨-, hheard⟩
            refine ⟨hheard.kinds, fun ho hconf => ?_⟩
            obtain ⟨hne, s, rfl⟩ := hheard.never ho hconf
            exact ⟨hne, s, rfl⟩
          dsimp only
          cases hr : compound inner ctx pos with
          | done e trace after =>
              rw [hr] at hcompound
              exact hcompound
          | failed why trace after =>
              rw [hr] at hcompound
              exact hcompound.elim
          | fault fault => trivial
      | _ => exact hfail _ (by decide) rfl

/-- An item outside all forms that does not begin with a closing bracket. -/
theorem tells_item (G : Ground ctx C F N) (h : inner.Finds ctx C F N n)
    (hs : Supply (fun _ => True) (n + 1) pos.rest) (hforms : pos.forms = [])
    (hrest : pos.rest = opened :: tail) (hC : C pos.rest) :
    (item inner (recovered (expression inner [])) ctx pos).Tells
      (fun i notes => i.IsLate N ∧
        HeardForm ctx N opened tail (∃ s, i = .expression (.error s)) notes)
      (fun _ _ => False) := by
  rw [item, atDefinition_bind_apply]
  split
  · rename_i hhead
    obtain ⟨opened', tail', hrest', ho, hdef⟩ := begins_of_atDefinition hhead
    rw [hrest] at hrest'
    cases hrest'
    have key := tells_outermost "definition" G hforms hrest ho hC
      (finds_definition_inside G h hs hrest ho hC hdef)
      (closing_definition (pos.enter _ tail) h.tidy (hs.tail hrest) hdef)
    refine tells_map (key.mono ?_ (fun _ _ h => h))
    rintro p notes ⟨hp, hheard⟩
    refine ⟨isLate_itemOfParsed hp, hheard.kinds, fun ho hconf => ?_⟩
    obtain ⟨hne, s, rfl⟩ := hheard.never ho hconf
    exact ⟨hne, s, rfl⟩
  · refine tells_map ((tells_recovered G h hs hforms hrest hC).mono ?_ (fun _ _ h => h))
    intro e notes hheard
    refine ⟨by rintro d ⟨⟩, hheard.kinds, fun ho hconf => ?_⟩
    obtain ⟨hne, s, rfl⟩ := hheard.never ho hconf
    exact ⟨hne, s, rfl⟩

/-- The next item at top level, with what is found about it. -/
theorem exists_outerItem_heard (pos : Position) (G : Ground ctx C F N) (h : inner.Finds ctx C F N n)
    (hs : Supply (fun _ => True) (n + 1) pos.rest) (hforms : pos.forms = [])
    (hrest : pos.rest = opened :: tail) (hC : C pos.rest) :
    ∃ i trace, (∀ started, outerItem inner started ctx pos
        = .done (some i) trace (pos.moveTo (pos.rest.drop (extent pos.rest)))) ∧
      (opened.closes = true → i = .nothing ∧ trace.notes = [strayClose opened]) ∧
      (opened.closes = false → i.IsLate N ∧
        HeardForm ctx N opened tail (∃ s, i = .expression (.error s)) trace.notes) := by
  obtain ⟨i, trace, hitem, -⟩ := exists_outerItem_eq_done h.tidy hs hforms hrest
  have hnext : pos.rest[0]? = some opened := by simp [hrest]
  refine ⟨i, trace, hitem, ?_, ?_⟩
  · intro hc
    have key := hitem false
    rw [outerItem, peek_bind_apply, hnext] at key
    simp only [hc, if_true, bind_apply, note, advance, hrest, pure_apply, Reply.behind,
      Reply.done.injEq, Option.some.injEq] at key
    obtain ⟨rfl, rfl, -⟩ := key
    exact ⟨rfl, rfl⟩
  · intro hc
    have htells : (outerItem inner false ctx pos).Tells
        (fun i notes => ∀ i' ∈ i, i'.IsLate N ∧
          HeardForm ctx N opened tail (∃ s, i' = .expression (.error s)) notes)
        (fun _ _ => False) := by
      rw [outerItem, peek_bind_apply, hnext]
      simp only [hc, Bool.false_eq_true, if_false]
      refine tells_map ((tells_item G h hs hforms hrest hC).mono ?_ (fun _ _ h => h))
      rintro i notes hi i' ⟨⟩
      exact hi
    rw [hitem false] at htells
    exact htells i rfl

end Parse

/-! ## All forms -/

/-- What the forms of a list of tokens come to, and what is found about each. -/
inductive Parse.Heard (ctx : Context) (C : List Token → Prop) (N : Diagnostic → Prop) :
    List Token → List Outcome → Prop
  | nil : Heard ctx C N [] []
  | stray {t : Token} {ts : List Token} {os : List Outcome} (ht : t.closes = true)
      (hC : C (t :: ts)) (more : Heard ctx C N ts os) :
      Heard ctx C N (t :: ts) (⟨.nothing, [strayClose t]⟩ :: os)
  | closed {xs ts : List Token} {o : Outcome} {os : List Outcome} (hne : xs ≠ [])
      (hx : Balanced xs) (hnotes : ∀ m ∈ o.notes, N m) (hlate : o.item.IsLate N)
      (more : Heard ctx C N ts os) :
      Heard ctx C N (xs ++ ts) (o :: os)
  | never {t : Token} {ts : List Token} {o : Outcome} {s : Span} (ht : t.opens = true)
      (hts : Confined ts) (hC : C (t :: ts)) (hitem : o.item = .expression (.error s))
      (hne : o.notes ≠ []) (hnotes : (∀ m ∈ o.notes, N m) ∨ ∃ before construct,
        o.notes = before ++ [cutOff ctx t construct] ∧ ∀ m ∈ before, N m) :
      Heard ctx C N (t :: ts) [o]

namespace Parse

/-- Of no tokens nothing is found. -/
theorem Heard.eq_nil {os : List Outcome} (h : Heard ctx C N [] os) : os = [] := by
  generalize hnil : ([] : List Token) = ts at h
  cases h with
  | nil => rfl
  | stray => cases hnil
  | closed hne => exact absurd (List.append_eq_nil_iff.1 hnil.symm).1 hne
  | never => cases hnil

/-- The first form, and what is found about those behind it. -/
theorem Heard.cons {t : Token} {ts : List Token} {i : BodyItem} {notes : List Diagnostic}
    {os : List Outcome} (hC : C (t :: ts))
    (hstray : t.closes = true → i = .nothing ∧ notes = [strayClose t])
    (hform : t.closes = false → i.IsLate N ∧
      HeardForm ctx N t ts (∃ s, i = .expression (.error s)) notes)
    (more : Heard ctx C N ((t :: ts).drop (extent (t :: ts))) os) :
    Heard ctx C N (t :: ts) (⟨i, notes⟩ :: os) := by
  rcases bracket_cases t with ho | hc | ⟨ho, hc⟩
  · obtain ⟨hlate, hheard⟩ := hform (closes_eq_false_of_opens ho)
    rcases closed_or_confined ts with ⟨xs, c, us, rfl, hx, hc⟩ | hconf
    · have hnotes : ∀ m ∈ notes, N m := by
        rcases hheard.kinds with hnotes | ⟨-, hconf, -⟩
        · exact hnotes
        · exact absurd hconf (not_confined_of_balanced_append hx hc)
      rw [drop_extent_of_balanced ho hx hc] at more
      have key := Heard.closed (o := ⟨i, notes⟩) (by simp) (hx.bracketed ho hc) hnotes hlate more
      simpa using key
    · rw [drop_extent_of_confined ho hconf] at more
      obtain ⟨hne, s, hs⟩ := hheard.never ho hconf
      rw [more.eq_nil]
      refine .never ho hconf hC hs hne ?_
      rcases hheard.kinds with hnotes | ⟨-, -, hcut⟩
      · exact .inl hnotes
      · exact .inr hcut
  · obtain ⟨rfl, rfl⟩ := hstray hc
    rw [extent_cons_of_not_opens (opens_eq_false_of_closes hc)] at more
    exact .stray hc hC more
  · obtain ⟨hlate, hheard⟩ := hform hc
    have hnotes : ∀ m ∈ notes, N m := by
      rcases hheard.kinds with hnotes | ⟨hopens, -⟩
      · exact hnotes
      · rw [ho] at hopens
        cases hopens
    rw [extent_cons_of_not_opens ho] at more
    exact .closed (List.cons_ne_nil t []) (balanced_singleton ho hc) hnotes hlate more

/-- From any tokens in order on, items are read, with what is found about them. -/
theorem exists_feeds_heard (G : Ground ctx C F N) {ts : List Token} (hasc : Ascending ts)
    (hn : ts.length ≤ n) (hC : C ts) :
    ∃ os, Feeds (outerItem (nested n)) ctx { rest := ts } os ∧ os.length ≤ ts.length ∧
      Heard ctx C N ts os := by
  generalize hlen : ts.length = k
  induction k using Nat.strongRecOn generalizing ts with
  | ind k ih =>
      cases ts with
      | nil => exact ⟨[], .nil fun _ => rfl, Nat.zero_le _, .nil⟩
      | cons t ts =>
          have hs : Supply (fun _ => True) (n + 1) (t :: ts) :=
            ⟨Nat.lt_succ_of_le hn, hasc, fun _ _ => trivial⟩
          obtain ⟨i, trace, hitem, hstray, hform⟩ :=
            exists_outerItem_heard { rest := t :: ts } G (finds_nested G n) hs rfl rfl hC
          have hpos : 0 < extent (t :: ts) := extent_pos (by simp)
          have hdrop : ((t :: ts).drop (extent (t :: ts))).length + 1 ≤ (t :: ts).length := by
            rw [List.length_drop, List.length_cons]
            omega
          obtain ⟨os, hfeeds, hle, hheard⟩ := ih _ (by omega)
            (hasc.of_suffix (List.drop_suffix (extent (t :: ts)) _)) (by omega) (G.behind _ hC) rfl
          exact ⟨⟨i, trace.notes⟩ :: os, .cons hitem hfeeds, by rw [List.length_cons]; omega,
            .cons hC hstray hform hheard⟩

end Parse

/-- Tokens in order give a program, and its findings are those about its forms. -/
theorem Body.exists_ofTokens_heard {limit : Int} {src : Source} {ts : List Token}
    (G : Parse.Ground (Context.ofSource limit src) C F N) (hasc : Ascending ts) (hC : C ts) :
    ∃ os p notes, ofTokens limit src ts = .ok (p, notes) ∧
      Outcome.Makes src.endOfInput os p notes ∧
      Parse.Heard (Context.ofSource limit src) C N ts os := by
  obtain ⟨os, hfeeds, hlen, hheard⟩ := Parse.exists_feeds_heard G hasc (Nat.le_refl _) hC
  obtain ⟨p, notes, hp, hmakes⟩ := ofTokens_of_feeds hfeeds hlen
  exact ⟨os, p, notes, hp, hmakes, hheard⟩

/-! ## Findings in order -/

/-- What is found about the form is found inside of forms too, or is that a bracket closes
nothing. -/
structure Outcome.IsUsual (N : Diagnostic → Prop) (o : Outcome) : Prop where
  notes : ∀ m ∈ o.notes, N m ∨ ∃ t, t.closes = true ∧ m = Parse.strayClose t
  late : o.item.IsLate N

/-- What is said of a definition that comes too late is of the kind. -/
theorem Outcome.of_mem_lateNotes {o : Outcome} {m : Diagnostic} (ho : o.item.IsLate N)
    (hm : m ∈ o.item.lateNotes) : N m := by
  cases hitem : o.item with
  | definition d =>
      rw [hitem] at hm
      rw [List.mem_singleton.1 hm]
      exact ho d hitem
  | _ =>
      rw [hitem] at hm
      cases hm

/-- How the forms of a program end: all are closed, or the last one, which begins with `t`, is
an error. -/
inductive Outcome.Ending (ctx : Context) (N : Diagnostic → Prop) :
    (open? : Option Token) → List Outcome → Prop
  | closed {os : List Outcome} (h : ∀ o ∈ os, o.IsUsual N) : Ending ctx N none os
  | never {front : List Outcome} {o : Outcome} {t : Token} {s : Span}
      (hfront : ∀ o' ∈ front, o'.IsUsual N) (hitem : o.item = .expression (.error s))
      (hne : o.notes ≠ []) (hnotes : (∀ m ∈ o.notes, N m) ∨ ∃ before construct,
        o.notes = before ++ [Parse.cutOff ctx t construct] ∧ ∀ m ∈ before, N m) :
      Ending ctx N (some t) (front ++ [o])

theorem Outcome.Ending.cons {o : Outcome} {open? : Option Token} {os : List Outcome}
    (ho : o.IsUsual N) (h : Ending ctx N open? os) : Ending ctx N open? (o :: os) := by
  cases h with
  | closed hos => exact .closed (by simpa using ⟨ho, hos⟩)
  | @never front o' t s hfront hitem hne hnotes =>
      have hall : ∀ o'' ∈ o :: front, o''.IsUsual N := by simpa using ⟨ho, hfront⟩
      exact .never hall hitem hne hnotes

namespace Parse

variable {ts : List Token} {os : List Outcome}

/-- Everything that is found about a form: what is found inside of forms, that it is a bracket that
closes nothing, or that it is never closed. -/
theorem Heard.of_mem (h : Heard ctx C N ts os) {o : Outcome} (ho : o ∈ os) :
    o.item.IsLate N ∧ ∀ m ∈ o.notes, N m ∨
      ∃ t us, C (t :: us) ∧ (t.closes = true ∧ m = strayClose t ∨
        t.opens = true ∧ ∃ construct, m = cutOff ctx t construct) := by
  induction h with
  | nil => cases ho
  | @stray t ts os ht hC more ih =>
      rcases List.mem_cons.1 ho with rfl | ho
      · refine ⟨by rintro d ⟨⟩, ?_⟩
        intro m hm
        exact .inr ⟨t, ts, hC, .inl ⟨ht, List.mem_singleton.1 hm⟩⟩
      · exact ih ho
  | @closed xs ts o' os hne hx hnotes hlate more ih =>
      rcases List.mem_cons.1 ho with rfl | ho
      · exact ⟨hlate, fun m hm => .inl (hnotes m hm)⟩
      · exact ih ho
  | @never t ts o' s ht hts hC hitem hne hnotes =>
      obtain rfl := List.mem_singleton.1 ho
      refine ⟨by rw [hitem]; rintro d ⟨⟩, ?_⟩
      intro m hm
      rcases hnotes with hnotes | ⟨before, construct, hcons, hbefore⟩
      · exact .inl (hnotes m hm)
      · rw [hcons] at hm
        rcases List.mem_append.1 hm with hm | hm
        · exact .inl (hbefore m hm)
        · exact .inr ⟨t, ts, hC, .inr ⟨ht, construct, List.mem_singleton.1 hm⟩⟩

/-- Findings that only brackets give that close nothing: there is one for each of these. -/
theorem Heard.filter_notes {p : Diagnostic → Bool} (hN : ∀ m, N m → p m = false)
    (hcut : ∀ t construct, p (cutOff ctx t construct) = false)
    (hstray : ∀ t, p (strayClose t) = true) (h : Heard ctx C N ts os) :
    (os.flatMap (·.notes)).filter p = (strays 0 ts).map strayClose := by
  have hnone : ∀ notes : List Diagnostic, (∀ m ∈ notes, N m) → notes.filter p = [] :=
    fun notes hnotes => List.filter_eq_nil_iff.2 fun m hm => by simp [hN m (hnotes m hm)]
  induction h with
  | nil => rfl
  | stray ht hC more ih =>
      rw [strays_zero_cons_of_closes ht, List.map_cons, ← ih]
      simp [hstray]
  | @closed xs ts o os hne hx hnotes hlate more ih =>
      rw [hx.strays_append, ← ih, List.flatMap_cons, List.filter_append, hnone _ hnotes,
        List.nil_append]
  | @never t ts o s ht hts hC hitem hne hnotes =>
      rw [strays_of_confined ht hts, List.map_nil, List.flatMap_singleton]
      rcases hnotes with hnotes | ⟨before, construct, hcons, hbefore⟩
      · exact hnone _ hnotes
      · rw [hcons, List.filter_append, hnone _ hbefore]
        simp [hcut]

/-- The forms end with the first one that is never closed. -/
theorem Heard.ending (h : Heard ctx C N ts os) : Outcome.Ending ctx N (unclosed? ts) os := by
  induction h with
  | nil => exact .closed (by simp)
  | @stray t ts os ht hC more ih =>
      rw [unclosed?_cons_of_not_opens (opens_eq_false_of_closes ht)]
      refine ih.cons ⟨?_, by rintro d ⟨⟩⟩
      intro m hm
      exact .inr ⟨t, ht, List.mem_singleton.1 hm⟩
  | @closed xs ts o os hne hx hnotes hlate more ih =>
      rw [hx.unclosed?_append]
      exact ih.cons ⟨fun m hm => .inl (hnotes m hm), hlate⟩
  | @never t ts o s ht hts hC hitem hne hnotes =>
      rw [unclosed?_of_confined ht hts]
      have hnone : ∀ o' ∈ ([] : List Outcome), o'.IsUsual N := by simp
      exact .never hnone hitem hne hnotes

end Parse

end SchemeFront
