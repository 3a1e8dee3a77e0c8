import SchemeFront.Proofs.Datum.Scan
import SchemeFront.Proofs.Datum.Soundness
import SchemeFront.Proofs.Parse.Accounted
import SchemeFront.Proofs.Parse.Layers
import SchemeFront.Proofs.Session.Pointing

set_option autoImplicit false

/-! # Nesting as it is written

Expansion nests forms more deeply than they are written. But the expanded tokens are in layers, in
which the written forms that are open are as many as the brackets that are open at the same place
in the source (`Transformer.layered_rewrite`). So a form is found to be nested too deeply only
where this can be seen in the source (`Session.tooDeep_as_written`).
-/

namespace SchemeFront

open Token

variable {ctx : Context} {limit : Int} {src : Source} {l : Lexed} {forms : List Bool}
  {source after rest ts : List Token} {written : Token → Bool} {m : Diagnostic}

/-! ## Layers of expanded tokens -/

/-- If the next bracket is written, it is in the source, with as many brackets open around it as
written forms are open. -/
def Token.Enclosed (source : List Token) (written : Token → Bool) (forms : List Bool) :
    List Token → Prop
  | [] => True
  | t :: _ => t.opens = true → written t = true →
      ∃ after, LeftOpen source (forms.count true) (t :: after)

theorem Token.enclosed_of_not_opens {t : Token} (ho : t.opens = false) :
    Enclosed source written forms (t :: ts) := by
  intro hopens
  rw [ho] at hopens
  cases hopens

/-- Tokens that are kept as they are, each bracket of them written. -/
theorem Token.layered_kept {d e : Nat} (hx : openAfter d ts = some e)
    (hleft : LeftOpen source (forms.count true + d) (ts ++ after))
    (hwritten : ∀ t ∈ ts, t.opens = true → written t = true)
    (hrest : Layered written (Enclosed source written) (List.replicate e true ++ forms) rest) :
    Layered written (Enclosed source written) (List.replicate d true ++ forms) (ts ++ rest) := by
  induction ts generalizing d with
  | nil =>
      obtain rfl : d = e := by simpa using hx
      exact hrest
  | cons t ts ih =>
      have htail : ∀ u ∈ ts, u.opens = true → written u = true := fun u hu =>
        hwritten u (List.mem_cons_of_mem t hu)
      rcases bracket_cases t with ho | hc | ⟨ho, hc⟩
      · rw [openAfter_cons_of_opens ho] at hx
        have hcount : (List.replicate d true ++ forms).count true = forms.count true + d := by
          rw [List.count_append, List.count_replicate_self, Nat.add_comm]
        exact .opening ho (hwritten t List.mem_cons_self ho)
          (fun _ _ => ⟨ts ++ after, hcount ▸ hleft⟩) (ih hx (hleft.of_opens ho) htail)
      · -- It closes one of the brackets that were opened in these tokens.
        cases d with
        | zero => simp [openAfter_zero_cons_of_closes hc] at hx
        | succ d =>
            rw [openAfter_cons_of_closes hc] at hx
            exact .closing hc (enclosed_of_not_opens (opens_eq_false_of_closes hc))
              (ih hx (hleft.of_closes hc) htail)
      · rw [openAfter_cons_of_plain ho hc] at hx
        exact .plain ho hc (enclosed_of_not_opens ho) (ih hx (hleft.of_plain ho hc) htail)

namespace Transformer

mutual

/-- What is written in the place of a datum is in layers. The brackets that are written are counted
as in the source. -/
theorem layered_rewrite (d : Datum) {forms : List Bool} {after rest : List Token}
    (hd : d.IsWhole) (hleft : LeftOpen source (forms.count true) (d.flatten ++ after))
    (htold : Told ctx d.flatten)
    (hrest : Layered ctx.written (Enclosed source ctx.written) forms rest) :
    Layered ctx.written (Enclosed source ctx.written) forms
      (rewrite (marks d) d.flatten ++ rest) := by
  cases d with
  | leaf l s => exact .plain hd.1 hd.2 (enclosed_of_not_opens hd.1) hrest
  | broken ts s =>
      rw [marks, Datum.flatten, rewrite_keep]
      exact layered_kept hd hleft htold.opening hrest
  | list ds s =>
      have hwritten : ctx.written ⟨.keyword .opening, s.first⟩ = true :=
        htold.opening _ (by simp [Datum.flatten]) rfl
      rw [Datum.flatten, List.cons_append, List.cons_append, List.append_assoc] at hleft
      -- Behind the bracket of the list one more is open.
      have hinside : LeftOpen source ((true :: forms).count true)
          (Datum.flattenAll ds ++ ([⟨.keyword .closing, s.final⟩] ++ after)) := by
        rw [List.count_cons_self]
        exact hleft.of_opens rfl
      have hclosed : Layered ctx.written (Enclosed source ctx.written) (true :: forms)
          (⟨.keyword .closing, s.final⟩ :: rest) :=
        .closing rfl (enclosed_of_not_opens rfl) hrest
      cases hhead : (Datum.list ds s).isHeadedBy beginName with
      | false =>
          rw [rewrite_list hhead, List.cons_append, List.append_assoc]
          refine .opening rfl hwritten (fun _ _ => ⟨_, hleft⟩) ?_
          exact layered_rewriteAll ds hd hinside (htold.mono (by simp [Datum.flatten])) hclosed
      | true =>
          obtain ⟨l, hs, body, _, heq, hl⟩ := exists_leaf_of_isHeadedBy hhead
          cases heq
          have hfree : ctx.written ⟨.keyword .opening, hs.first⟩ = false :=
            htold.name ⟨l, hs⟩ (by simp [Datum.flatten, Datum.flattenAll]) hl
          rw [rewrite_sequence body hl, List.cons_append, List.append_assoc, List.append_assoc]
          refine .opening rfl hwritten (fun _ _ => ⟨_, hleft⟩) ?_
          -- The bracket of the procedure is not written, so nothing is asked of it.
          refine .procedure rfl hfree rfl rfl rfl ?_ ?_
          · intro _ hno
            rw [hfree] at hno
            cases hno
          -- In the source there is only the name of the sequence, which is no bracket.
          exact layered_rewriteAll body hd.2 (hinside.of_plain hd.1.1 hd.1.2)
            (htold.mono fun u hu => by simp [Datum.flatten, Datum.flattenAll, hu])
            (.closing rfl (enclosed_of_not_opens rfl) hclosed)

theorem layered_rewriteAll (ds : List Datum) {forms : List Bool} {after rest : List Token}
    (hds : Datum.AreWhole ds)
    (hleft : LeftOpen source (forms.count true) (Datum.flattenAll ds ++ after))
    (htold : Told ctx (Datum.flattenAll ds))
    (hrest : Layered ctx.written (Enclosed source ctx.written) forms rest) :
    Layered ctx.written (Enclosed source ctx.written) forms
      (rewrite (marksAll ds) (Datum.flattenAll ds) ++ rest) := by
  cases ds with
  | nil => exact hrest
  | cons d ds =>
      rw [Datum.flattenAll, List.append_assoc] at hleft
      rw [Datum.flattenAll] at htold
      rw [marksAll, Datum.flattenAll, rewrite_append (length_marks d), List.append_assoc]
      exact layered_rewrite d hds.1 hleft (htold.mono (List.subset_append_left _ _))
        (layered_rewriteAll ds hds.2 (hleft.of_balanced (Datum.balanced_flatten d hds.1))
          (htold.mono (List.subset_append_right _ _)) hrest)

end

/-- From any place outside all forms to the end of the source, the expanded tokens are in layers. -/
theorem layered_reads {ds : List Datum} {notes : List Diagnostic} {endOfInput : Span}
    (h : Datum.Reads limit endOfInput ts ds notes)
    (hleft : LeftOpen source 0 (Datum.flattenAll ds)) (htold : Told ctx (Datum.flattenAll ds)) :
    Layered ctx.written (Enclosed source ctx.written) []
      (rewrite (marksAll ds) (Datum.flattenAll ds)) := by
  induction h with
  | nil => exact .nil fun _ _ => trivial
  | @stray t ts ds notes ht more ih =>
      rw [rewrite_broken, List.singleton_append]
      exact .stray ht (enclosed_of_not_opens (opens_eq_false_of_closes ht))
        (ih (hleft.of_closes ht) (htold.mono (List.subset_cons_self t _)))
  | @whole d xs ts ds early notes hx hd hearly more ih =>
      rw [Datum.flattenAll] at hleft htold
      rw [marksAll, Datum.flattenAll, rewrite_append (length_marks d)]
      exact layered_rewrite d hd hleft (htold.mono (List.subset_append_left _ _))
        (ih (hleft.of_balanced (Datum.balanced_flatten d hd))
          (htold.mono (List.subset_append_right _ _)))
  | @never t ts s early ht hts hearly =>
      -- What is never closed stays open to the end, and so do `e - 1` brackets inside.
      obtain ⟨e, he⟩ := Option.isSome_iff_exists.1 (hts.cons_of_opens ht)
      rw [rewrite_broken]
      have key : Layered ctx.written (Enclosed source ctx.written)
          (List.replicate 0 true ++ []) (t :: ts ++ []) :=
        layered_kept he hleft (fun u hu => htold.opening u (List.mem_append_left _ hu))
          (.nil fun _ _ => trivial)
      rwa [List.append_nil] at key

end Transformer

/-! ## Findings about nesting -/

/-- The finding is that something is nested too deeply, whatever the limit. -/
def Diagnostic.IsTooDeep (m : Diagnostic) : Prop :=
  ∃ limit bracket construct, m.cause = (tooDeep limit bracket construct).cause

theorem Diagnostic.IsTooDeep.beginning (h : m.IsTooDeep) :
    m.cause.beginning = "Nesting deepe".toList := by
  obtain ⟨limit, bracket, construct, hcause⟩ := h
  rw [hcause, Cause.beginning_tooDeep]

/-- The finding is made at a bracket of the source with at least `limit` open brackets around it. -/
def Diagnostic.IsEnclosed (limit : Int) (source : List Token) (m : Diagnostic) : Prop :=
  ∃ before t after, source = before ++ t :: after ∧ t.opens = true ∧ m.span = t.span ∧
    limit ≤ levelAfter 0 before

namespace Parse

/-- Failures inside a form are no findings about nesting. -/
theorem Blames.not_isTooDeep {why : Diagnostic} (h : Blames ctx ts why) (t : Token)
    (construct : String) : ¬ (explain t construct why).IsTooDeep := by
  intro hdeep
  have hbeginning := hdeep.beginning
  cases h with
  | ended expected => cases hbeginning
  | token ht expected => cases hbeginning
  | misplaced ht =>
      rw [explain_cause rfl, Cause.beginning_misplaced] at hbeginning
      exact absurd hbeginning (by decide)
  | duplicate ht hi =>
      rw [explain_cause rfl, Cause.beginning_duplicate] at hbeginning
      exact absurd hbeginning (by decide)

/-- On tokens in layers, what is found to be nested too deeply is so in the source. -/
theorem ledger_enclosed (ctx : Context) (source : List Token) :
    Ledger ctx (Position.InLayers ctx (Enclosed source ctx.written) [])
      (fun _ ms => ∀ m ∈ ms, m.IsTooDeep → m.IsEnclosed ctx.limit source) where
  nil := by simp
  append h h' m hm := (List.mem_append.1 hm).elim (h m) (h' m)
  perm _ h := h
  discard h := h
  node _ h := h
  refused pos t ts construct s h hrest ho hrefuses _ := by
    obtain ⟨hwritten, hlimit, hG⟩ := h.of_refuses hrest ho hrefuses
    obtain ⟨after, before, hsource, hlevel⟩ := hG ho hwritten
    intro m hm _
    rw [List.mem_singleton.1 hm]
    exact ⟨before, t, after, hsource, ho, rfl, hlevel ▸ hlimit⟩
  broken pos t ts construct why s _ _ _ hwhy _ m hm hdeep := by
    rw [List.mem_singleton.1 hm] at hdeep
    exact absurd hdeep (hwhy.not_isTooDeep t construct)
  word t m hm hdeep := by
    rw [List.mem_singleton.1 hm] at hdeep
    cases hdeep.beginning
  late d m hm hdeep := by
    rw [List.mem_singleton.1 hm] at hdeep
    have hbeginning := hdeep.beginning
    rw [Cause.beginning_late] at hbeginning
    exact absurd hbeginning (by decide)
  stray t m hm hdeep := by
    rw [List.mem_singleton.1 hm] at hdeep
    cases hdeep.beginning
  missing m hm hdeep := by
    rw [List.mem_singleton.1 hm] at hdeep
    cases hdeep.beginning

end Parse

/-! ## Programs -/

/-- If nothing is wrong with the data that are read, all brackets are opened below the limit. -/
theorem Datum.opensBelow_of_ofTokens {data : List Datum}
    (h : ofTokens limit src ts = .ok (data, none)) : OpensBelow limit 0 ts := by
  rw [ofTokens] at h
  obtain ⟨r, hr, hdata⟩ := exists_of_bind_eq_ok h
  have hnotes : r.notes = [] := by
    have hreport := (Prod.mk.inj (Except.ok.inj hdata)).2
    simpa [Report.of?] using hreport
  have hscan := notes_of_readFrom hr
  rw [hnotes] at hscan
  exact ((scan_append_scanEnd_eq_nil_iff src.endOfInput).1 hscan.symm).2

namespace Session

/-- **Nesting is limited as it is written.** However sequences are expanded, what is found to be
nested too deeply begins with a bracket of the source that has at least `limit` open brackets of
the source around it. So nothing is, if the data of the source can be read within that limit. -/
theorem tooDeep_as_written (limit expansionLimit : Int) (h : Lexed.ofSource src = .ok l) :
    ∃ events x p notes,
      Expansion.ofTokens Transformer.builtin expansionLimit src l.tokens = (events, .ok x) ∧
      Body.ofTokens limit src x.tokens = .ok (p, notes) ∧
      (∀ m ∈ notes, m.IsTooDeep → m.IsEnclosed limit l.tokens) ∧
      ((∃ data, Datum.ofTokens limit src l.tokens = .ok (data, none)) →
        ∀ m ∈ notes, ¬ m.IsTooDeep) := by
  obtain ⟨r, events, x, hx⟩ := Expansion.exists_rewrites expansionLimit h
  have hreads := Datum.reads_of_readFrom hx.read
  have htold := hx.flatten_eq ▸ Lexed.told limit h
  have hlayered := Transformer.layered_reads hreads (.start _) htold
  rw [hx.flatten_eq, ← hx.tokens_eq] at hlayered
  obtain ⟨p, notes, hp, hnotes⟩ := Body.exists_ofTokens_of_ledger
    (Parse.ledger_enclosed (Context.ofSource limit src) l.tokens) Parse.route_inLayers
    ⟨⟨x.tokens, rfl, hlayered⟩, rfl⟩ hx.ascending
  refine ⟨events, x, p, notes, hx.expanded, hp, hnotes, ?_⟩
  rintro ⟨data, hdata⟩ m hm hdeep
  obtain ⟨before, t, after, hsource, ho, -, hlimit⟩ := hnotes m hm hdeep
  have hbelow := Datum.opensBelow_of_ofTokens hdata before t after hsource ho
  exact absurd hlimit (Int.not_le.2 hbelow)

/-- A call in two sequences is too deep, and so is one in a list that is never closed. -/
theorem tooDeep_as_written_sequences :
    ∃ l, Lexed.ofSource ⟨"a.scm", "(begin (begin (f x))) (f (begin (g".toList⟩ = .ok l ∧
      ∃ events x p notes,
        Expansion.ofTokens Transformer.builtin 100
          ⟨"a.scm", "(begin (begin (f x))) (f (begin (g".toList⟩ l.tokens = (events, .ok x) ∧
        Body.ofTokens 2 ⟨"a.scm", "(begin (begin (f x))) (f (begin (g".toList⟩ x.tokens
          = .ok (p, notes) ∧
        (∀ m ∈ notes, m.IsTooDeep → m.IsEnclosed 2 l.tokens) ∧
        ((∃ data, Datum.ofTokens 2 ⟨"a.scm", "(begin (begin (f x))) (f (begin (g".toList⟩ l.tokens
            = .ok (data, none)) → ∀ m ∈ notes, ¬ m.IsTooDeep) ∧
        ∃ m ∈ notes, m.IsTooDeep := by
  obtain ⟨l, hl⟩ : ∃ l, Lexed.ofSource ⟨"a.scm", "(begin (begin (f x))) (f (begin (g".toList⟩
      = .ok l := ⟨_, rfl⟩
  obtain ⟨events, x, p, notes, hx, hp, henclosed, hnone⟩ := tooDeep_as_written 2 100 hl
  have hfirst : ((Expansion.ofTokens Transformer.builtin 100
      ⟨"a.scm", "(begin (begin (f x))) (f (begin (g".toList⟩ l.tokens).2.toOption.bind
        fun x => (Body.ofTokens 2 ⟨"a.scm", "(begin (begin (f x))) (f (begin (g".toList⟩
          x.tokens).toOption).bind (fun r => r.2.head?) =
      some (Diagnostic.tooDeep 2 ⟨"a.scm", 14, 15, by decide⟩ "procedure call") := by
    cases hl
    decide +kernel
  rw [hx] at hfirst
  simp only [Except.toOption, Option.bind_some, hp] at hfirst
  exact ⟨l, hl, events, x, p, notes, hx, hp, henclosed, hnone, _, List.mem_of_mem_head? hfirst,
    _, _, _, rfl⟩

/-- Sequences may be nested as deeply as other lists, although twice as many forms are open. -/
example : ((answer (parseLenient ⟨"a.scm", "(begin (begin (begin x)))".toList⟩)
    ⟨Transformer.builtin, 3, []⟩).map fun a => a.2.isSome).toOption = some false := by
  decide +kernel

end Session

end SchemeFront
