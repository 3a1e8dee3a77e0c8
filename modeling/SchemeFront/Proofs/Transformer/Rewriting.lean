import SchemeFront.Proofs.Session.Totality

set_option autoImplicit false

/-! # Expansion as an edit of tokens

On a tree, the rule for sequences puts one list into another. On the tokens that the tree was read
from it is a flat edit: each token has a `Mark`, which says what is written in its place, and the
marks differ from `keep` only at the name and at the closing bracket of a sequence
(`Expansion.ofTokens_rewrites`). Malformed regions are kept as they are.
-/

namespace SchemeFront

open Token

variable {src : Source} {l : Lexed} {path : String}

namespace Transformer

/-! ## Marks -/

/-- What becomes of a token: it is kept, or it is the name that heads a sequence, or the bracket
that closes one. -/
inductive Mark where
  | keep
  | head
  | close
deriving DecidableEq, Repr

/-- What is written in the place of a token. Where the name of a sequence stands, a procedure
without parameters begins, and it is closed where the sequence is. -/
def Mark.replace : Mark → Token → List Token
  | keep, t => [t]
  | head, t =>
      [⟨.keyword .opening, t.span.first⟩, ⟨.keyword .lambda, t.span⟩,
        ⟨.keyword .opening, t.span.first⟩, ⟨.keyword .closing, t.span.final⟩]
  | close, t => [⟨.keyword .closing, t.span⟩, t]

/-- The tokens with their marks carried out, one mark for each token. -/
def rewrite (ms : List Mark) (ts : List Token) : List Token :=
  (List.zipWith Mark.replace ms ts).flatten

mutual

/-- The marks of the tokens of a datum. A list that is headed by `begin` is a sequence. -/
def marks : Datum → List Mark
  | .leaf _ _ => [.keep]
  | .list ds s =>
      if (Datum.list ds s).isHeadedBy beginName then .keep :: .head :: (marksAll ds).tail ++ [.close]
      else .keep :: marksAll ds ++ [.keep]
  | .broken ts _ => ts.map fun _ => .keep

/-- The marks of the tokens of a list of data. -/
def marksAll : List Datum → List Mark
  | [] => []
  | d :: ds => marks d ++ marksAll ds

end

/-! ## Carrying out marks -/

theorem rewrite_cons (m : Mark) (t : Token) (ms : List Mark) (ts : List Token) :
    rewrite (m :: ms) (t :: ts) = m.replace t ++ rewrite ms ts := rfl

theorem rewrite_append {ms ns : List Mark} {ts us : List Token} (h : ms.length = ts.length) :
    rewrite (ms ++ ns) (ts ++ us) = rewrite ms ts ++ rewrite ns us := by
  rw [rewrite, List.zipWith_append h, List.flatten_append]
  rfl

/-- Tokens that are all kept stay. -/
theorem rewrite_keep (ts : List Token) : rewrite (ts.map fun _ => .keep) ts = ts := by
  induction ts with
  | nil => rfl
  | cons t ts ih =>
      rw [List.map_cons, rewrite_cons, ih]
      rfl

/-- A sequence begins with the leaf that is its name. -/
theorem exists_leaf_of_isHeadedBy {name : String} {d : Datum} (h : d.isHeadedBy name = true) :
    ∃ l hs body s, d = .list (.leaf l hs :: body) s ∧ l.name? = some name := by
  cases d with
  | list ds s =>
      cases ds with
      | nil => cases h
      | cons head body =>
          cases head with
          | leaf l hs => exact ⟨l, hs, body, s, rfl, eq_of_beq h⟩
          | list ds' s' => cases h
          | broken ts s' => cases h
  | leaf l s => cases h
  | broken ts s => cases h

mutual

/-- There is one mark for each token. -/
theorem length_marks (d : Datum) : (marks d).length = d.flatten.length := by
  cases d with
  | leaf l s => rfl
  | broken ts s => simp [marks, Datum.flatten]
  | list ds s =>
      have hds := length_marksAll ds
      rw [marks]
      split
      · rename_i hhead
        obtain ⟨l, hs, body, s', heq, -⟩ := exists_leaf_of_isHeadedBy hhead
        cases heq
        rw [marksAll, marks, Datum.flattenAll, Datum.flatten] at hds
        simp only [marksAll, marks, Datum.flatten, Datum.flattenAll, List.length_append,
          List.length_cons, List.length_nil, List.cons_append, List.nil_append,
          List.tail_cons] at hds ⊢
        omega
      · simp [Datum.flatten, hds]

theorem length_marksAll (ds : List Datum) :
    (marksAll ds).length = (Datum.flattenAll ds).length := by
  cases ds with
  | nil => rfl
  | cons d ds =>
      rw [marksAll, Datum.flattenAll, List.length_append, List.length_append, length_marks d,
        length_marksAll ds]

end

/-- A sequence with its marks carried out: a procedure begins at its name, and is closed where the
sequence is. -/
theorem rewrite_sequence {l : Lexeme} {hs s : Span} (body : List Datum)
    (hname : l.name? = some beginName) :
    rewrite (marks (.list (.leaf l hs :: body) s)) (Datum.list (.leaf l hs :: body) s).flatten =
      ⟨.keyword .opening, s.first⟩ :: (Mark.head.replace ⟨l, hs⟩ ++
        (rewrite (marksAll body) (Datum.flattenAll body) ++
          Mark.close.replace ⟨.keyword .closing, s.final⟩)) := by
  have hhead : (Datum.list (.leaf l hs :: body) s).isHeadedBy beginName = true :=
    beq_iff_eq.2 hname
  rw [marks, if_pos hhead]
  simp only [Datum.flatten, Datum.flattenAll, marksAll, marks, List.cons_append, List.nil_append,
    List.tail_cons, rewrite_cons, rewrite_append (length_marksAll body)]
  rfl

/-- Any other list keeps its brackets. -/
theorem rewrite_list {ds : List Datum} {s : Span}
    (h : (Datum.list ds s).isHeadedBy beginName = false) :
    rewrite (marks (.list ds s)) (Datum.list ds s).flatten =
      ⟨.keyword .opening, s.first⟩ :: (rewrite (marksAll ds) (Datum.flattenAll ds) ++
        [⟨.keyword .closing, s.final⟩]) := by
  rw [marks, if_neg (by simp [h])]
  simp only [Datum.flatten, List.cons_append, rewrite_cons, rewrite_append (length_marksAll ds)]
  rfl

/-- A malformed region is kept, in front of what the rest is expanded to. -/
theorem rewrite_broken (ts : List Token) (s : Span) (ds : List Datum) :
    rewrite (marksAll (.broken ts s :: ds)) (Datum.flattenAll (.broken ts s :: ds))
      = ts ++ rewrite (marksAll ds) (Datum.flattenAll ds) := by
  rw [marksAll, Datum.flattenAll, rewrite_append (length_marks _), marks, Datum.flatten,
    rewrite_keep]

/-! ## What expansion writes -/

/-- A list is expanded after its elements. -/
theorem exists_of_expand_list {ds : List Datum} {s : Span} {e : Datum}
    {registered : List Transformer} (h : expand sequence (.list ds s) = .ok (e, registered)) :
    ∃ es early, expandAll sequence ds = .ok (es, early) ∧ expandBegin (.list es s) = .ok e := by
  rw [expand] at h
  obtain ⟨⟨es, early⟩, hes, h⟩ := exists_of_bind_eq_ok h
  obtain ⟨⟨e', late⟩, he, hlast⟩ := exists_of_bind_eq_ok h
  cases hlast
  refine ⟨es, early, hes, ?_⟩
  obtain ⟨e', he', heq⟩ := exists_of_bind_eq_ok (f := fun e => .ok (e, [])) he
  cases heq
  exact he'

/-- Data are expanded one by one. -/
theorem exists_of_expandAll_cons {d : Datum} {ds fs : List Datum}
    {registered : List Transformer} (h : expandAll sequence (d :: ds) = .ok (fs, registered)) :
    ∃ e es early late, expand sequence d = .ok (e, early) ∧
      expandAll sequence ds = .ok (es, late) ∧ fs = e :: es := by
  rw [expandAll] at h
  obtain ⟨⟨e, early⟩, he, h⟩ := exists_of_bind_eq_ok h
  obtain ⟨⟨es, late⟩, hes, h⟩ := exists_of_bind_eq_ok h
  cases h
  exact ⟨e, es, early, late, he, hes, rfl⟩

/-- A sequence is expanded to a call, if its name does not begin behind its end. -/
theorem exists_of_expandBegin_headed {l : Lexeme} {hs s : Span} {body : List Datum} {e : Datum}
    (hname : l.name? = some beginName) (h : expandBegin (.list (.leaf l hs :: body) s) = .ok e) :
    ∃ hle : hs.start ≤ s.stop, e =
      .list [.list (.leaf (.keyword .lambda) hs :: .list [] hs :: body)
        ⟨s.path, hs.start, s.stop, hle⟩] s := by
  by_cases hle : hs.start ≤ s.stop
  · rw [expandBegin_of_headed hname hle] at h
    cases h
    exact ⟨hle, rfl⟩
  · rw [expandBegin, if_pos (by simp [Datum.isHeadedBy, Datum.name?, hname]), Datum.span,
      Span.make, dif_neg hle] at h
    cases h

/-- Expansion leaves what is no list as it is, and a list becomes a list. -/
theorem name?_of_expand {d e : Datum} {registered : List Transformer}
    (h : expand sequence d = .ok (e, registered)) : e.name? = d.name? := by
  cases d with
  | leaf l s =>
      cases h
      rfl
  | broken ts s =>
      cases h
      rfl
  | list ds s =>
      obtain ⟨es, -, -, he⟩ := exists_of_expand_list h
      cases hhead : (Datum.list es s).isHeadedBy beginName with
      | false =>
          rw [expandBegin_of_not_headed hhead] at he
          cases he
          rfl
      | true =>
          obtain ⟨l, hs, body, s', heq, hl⟩ := exists_leaf_of_isHeadedBy hhead
          cases heq
          obtain ⟨hle, rfl⟩ := exists_of_expandBegin_headed hl he
          rfl

/-- Expanding its elements does not make a list a sequence, or take its name away. -/
theorem isHeadedBy_of_expandAll {ds es : List Datum} {s : Span} {registered : List Transformer}
    (h : expandAll sequence ds = .ok (es, registered)) :
    (Datum.list es s).isHeadedBy beginName = (Datum.list ds s).isHeadedBy beginName := by
  cases ds with
  | nil =>
      cases h
      rfl
  | cons d ds =>
      obtain ⟨e, es, early, late, he, -, rfl⟩ := exists_of_expandAll_cons h
      show (e.name? == _) = (d.name? == _)
      rw [name?_of_expand he]

mutual

/-- The tokens of an expanded datum are those of the datum, with its marks carried out. -/
theorem flatten_of_expand (d : Datum) {e : Datum} {registered : List Transformer}
    (h : expand sequence d = .ok (e, registered))
    (hpath : ∀ t ∈ d.flatten, t.span.path = path) :
    e.flatten = rewrite (marks d) d.flatten := by
  cases d with
  | leaf l s =>
      cases h
      rfl
  | broken ts s =>
      cases h
      exact (rewrite_keep ts).symm
  | list ds s =>
      obtain ⟨es, early, hes, he⟩ := exists_of_expand_list h
      rw [Datum.flatten] at hpath
      have hds : Datum.flattenAll es = rewrite (marksAll ds) (Datum.flattenAll ds) :=
        flattenAll_of_expandAll ds hes fun t ht => hpath t (by simp [ht])
      have hhead : (Datum.list es s).isHeadedBy beginName
          = (Datum.list ds s).isHeadedBy beginName :=
        isHeadedBy_of_expandAll hes
      cases hds' : (Datum.list ds s).isHeadedBy beginName with
      | false =>
          rw [expandBegin_of_not_headed (hhead.trans hds')] at he
          cases he
          rw [rewrite_list hds', Datum.flatten, hds]
          rfl
      | true =>
          -- Behind the name of a sequence, the elements are written as they were expanded.
          obtain ⟨l, hs, body, s', heq, hl⟩ := exists_leaf_of_isHeadedBy hds'
          cases heq
          obtain ⟨_, body', _, _, hleaf, -, rfl⟩ := exists_of_expandAll_cons hes
          cases hleaf
          obtain ⟨hle, rfl⟩ := exists_of_expandBegin_headed hl he
          have hbody : Datum.flattenAll body' = rewrite (marksAll body) (Datum.flattenAll body) :=
            (List.cons_inj_right _).1 hds
          have hstart : s.path = path := hpath ⟨.keyword .opening, s.first⟩ (by simp)
          have hname : hs.path = path :=
            hpath ⟨l, hs⟩ (by simp [Datum.flattenAll, Datum.flatten])
          have hfirst : Span.first ⟨s.path, hs.start, s.stop, hle⟩ = hs.first := by
            rw [Span.first, hstart, Span.first, hname]
          rw [rewrite_sequence body hl]
          simp only [Datum.flatten, Datum.flattenAll, List.cons_append, List.nil_append,
            List.append_nil, List.append_assoc, Mark.replace, hbody, hfirst]
          rfl

theorem flattenAll_of_expandAll (ds : List Datum) {es : List Datum}
    {registered : List Transformer} (h : expandAll sequence ds = .ok (es, registered))
    (hpath : ∀ t ∈ Datum.flattenAll ds, t.span.path = path) :
    Datum.flattenAll es = rewrite (marksAll ds) (Datum.flattenAll ds) := by
  cases ds with
  | nil =>
      cases h
      rfl
  | cons d ds =>
      obtain ⟨e, es, early, late, he, hes, rfl⟩ := exists_of_expandAll_cons h
      simp only [Datum.flattenAll, List.mem_append, or_imp, forall_and] at hpath
      rw [Datum.flattenAll, flatten_of_expand d he hpath.1, flattenAll_of_expandAll ds hes hpath.2,
        marksAll, Datum.flattenAll, rewrite_append (length_marks d)]

end

end Transformer

/-! ## Expansion of a source -/

namespace Expansion

open Transformer

/-- What the rule for sequences makes of tokens are the data that were read, expanded. -/
theorem exists_of_ofTokens_sequence {limit : Int} {ts : List Token}
    {r : Datum.Reading (List Datum)} {events : List Event} {x : Expansion}
    (hr : Datum.readAll limit src.endOfInput ts = .ok r)
    (hx : ofTokens [sequence] limit src ts = (events, .ok x)) :
    ∃ es registered, expandAll sequence r.value = .ok (es, registered) ∧
      x.tokens = Datum.flattenAll es ∧ x.report? = Report.of? .syntactic r.notes src := by
  rw [ofTokens, Datum.ofTokens, hr] at hx
  simp only [bind, Except.bind, pure, Except.pure, runAll] at hx
  cases hes : expandAll sequence r.value with
  | error fault =>
      rw [hes] at hx
      cases hx
  | ok expanded =>
      obtain ⟨es, registered⟩ := expanded
      rw [hes] at hx
      cases hx
      exact ⟨es, registered, rfl, rfl, rfl⟩

/-- All that the rule for sequences does with the tokens of a source. -/
structure Rewrites (limit : Int) (src : Source) (ts : List Token)
    (r : Datum.Reading (List Datum)) (events : List Event) (x : Expansion) : Prop where
  read : Datum.readAll limit src.endOfInput ts = .ok r
  flatten_eq : Datum.flattenAll r.value = ts
  expanded : ofTokens [sequence] limit src ts = (events, .ok x)
  registered : x.registered = []
  report_eq : x.report? = Report.of? .syntactic r.notes src
  ascending : Token.Ascending x.tokens
  enclosing : Token.Enclosing x.tokens
  tokens_eq : x.tokens = rewrite (marksAll r.value) ts

/-- Data are read from the tokens of a source, and expanded. -/
theorem exists_rewrites (limit : Int) (h : Lexed.ofSource src = .ok l) :
    ∃ r events x, Rewrites limit src l.tokens r events x := by
  obtain ⟨r, hr, hflat⟩ := Datum.exists_readAll limit h
  obtain ⟨events, x, -, hx, hreg, hasc, henc, -⟩ := exists_ofTokens_eq_ok (P := fun _ => True)
    (fun _ hr => List.mem_singleton.1 hr) limit (fun _ => trivial) h (fun _ _ => trivial)
  obtain ⟨es, registered, hes, htokens, hreport⟩ := exists_of_ofTokens_sequence hr hx
  have hpath : ∀ t ∈ Datum.flattenAll r.value, t.span.path = src.path := by
    intro t ht
    obtain ⟨-, -, -, -, hpath, -⟩ := Lexed.exists_of_mem h (hflat ▸ ht)
    exact hpath
  refine ⟨r, events, x, hr, hflat, hx, hreg, hreport, hasc, henc, ?_⟩
  rw [htokens, flattenAll_of_expandAll r.value hes hpath, hflat]

/-- **Expansion edits tokens in place.** The tokens of a source are those of the data that are
read from them, each with its mark. The expanded tokens are the same, but where a sequence is
marked: instead of its name, a procedure without parameters begins, and its last bracket also
closes the procedure. -/
theorem ofTokens_rewrites (limit : Int) (h : Lexed.ofSource src = .ok l) :
    ∃ r events x, Datum.readAll limit src.endOfInput l.tokens = .ok r ∧
      Datum.flattenAll r.value = l.tokens ∧
      ofTokens [sequence] limit src l.tokens = (events, .ok x) ∧
      (marksAll r.value).length = l.tokens.length ∧
      x.tokens = rewrite (marksAll r.value) l.tokens := by
  obtain ⟨r, events, x, hrewrites⟩ := exists_rewrites limit h
  have hflat := hrewrites.flatten_eq
  exact ⟨r, events, x, hrewrites.read, hflat, hrewrites.expanded, hflat ▸ length_marksAll r.value,
    hrewrites.tokens_eq⟩

/-- Sequences within sequences, a name `begin` that heads no list, a bracket too many, a list that
is too deep and a list that is never closed. -/
theorem ofTokens_rewrites_sequences :
    ∃ l, Lexed.ofSource ⟨"a.scm",
        "(begin (begin x) (f begin)) ) (begin (begin (g y))) (begin z".toList⟩ = .ok l ∧
      ∃ r events x, Datum.readAll 2 (Source.endOfInput ⟨"a.scm",
          "(begin (begin x) (f begin)) ) (begin (begin (g y))) (begin z".toList⟩) l.tokens = .ok r ∧
        Datum.flattenAll r.value = l.tokens ∧
        ofTokens [sequence] 2 ⟨"a.scm",
          "(begin (begin x) (f begin)) ) (begin (begin (g y))) (begin z".toList⟩ l.tokens
            = (events, .ok x) ∧
        (marksAll r.value).length = l.tokens.length ∧
        x.tokens = rewrite (marksAll r.value) l.tokens :=
  ⟨_, rfl, ofTokens_rewrites 2 rfl⟩

end Expansion

end SchemeFront
