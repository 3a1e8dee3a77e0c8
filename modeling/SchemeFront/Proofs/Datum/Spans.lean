import SchemeFront.Proofs.Datum.Rereading
import SchemeFront.Proofs.Transformer.Sequence

set_option autoImplicit false

/-! # Where data stand

The data of a source stand one behind the other: the elements of a list between its brackets, and a
malformed region where its tokens do (`Datum.IsSpaced`). This is read off the tokens: they are the
flattened data, no two of them overlap, and a span that was read is that of the first and the last
token of its datum (`Datum.isSpaced_of_isLegible`).
-/

namespace SchemeFront

open Token

variable {P : Lexeme → Prop} {limit lo hi : Int} {endOfInput s : Span} {ts : List Token}

/-! ## Spans -/

namespace Span

/-- `s` begins before `t` does, and the two do not overlap. -/
def Precedes (s t : Span) : Prop := s.start < t.start ∧ s.stop ≤ t.start

/-- `t` lies within `s`, and not the other way round; so the two are not the same. -/
def Surrounds (s t : Span) : Prop := s.contains t = true ∧ t.contains s = false

theorem surrounds_of_start_lt {s t : Span} (hstart : s.start < t.start) (hstop : t.stop ≤ s.stop) :
    s.Surrounds t := by
  simp only [Surrounds, contains, Bool.and_eq_true, Bool.and_eq_false_iff, decide_eq_true_eq,
    decide_eq_false_iff_not]
  omega

theorem surrounds_of_stop_lt {s t : Span} (hstart : s.start ≤ t.start) (hstop : t.stop < s.stop) :
    s.Surrounds t := by
  simp only [Surrounds, contains, Bool.and_eq_true, Bool.and_eq_false_iff, decide_eq_true_eq,
    decide_eq_false_iff_not]
  omega

/-- The span goes from the start of the first token to the end of the last one. -/
def RunsOver (s : Span) (ts : List Token) : Prop :=
  ∃ first last, ts.head? = some first ∧ ts.getLast? = some last ∧
    s.start = first.span.start ∧ s.stop = last.span.stop

theorem runsOver_of_cover (hne : ts ≠ []) (h : cover ts endOfInput = .ok s) : s.RunsOver ts :=
  ⟨ts.head hne, ts.getLast hne, List.head?_eq_some_head hne, List.getLast?_eq_some_getLast hne,
    ends_of_cover hne h⟩

/-- A span over tokens that do not overlap lies where they do. -/
theorem RunsOver.bounds (h : s.RunsOver ts) (hts : Between P lo hi ts)
    (hord : ts.Pairwise fun t u => t.span.stop ≤ u.span.start) :
    lo ≤ s.start ∧ s.start < s.stop ∧ s.stop ≤ hi := by
  obtain ⟨first, last, hfirst, hlast, hstart, hstop⟩ := h
  obtain ⟨us, rfl⟩ := List.head?_eq_some_iff.1 hfirst
  have hf := hts.bounds first (by simp)
  have hl := hts.bounds last (List.mem_of_getLast? hlast)
  rcases List.mem_cons.1 (List.mem_of_getLast? hlast) with rfl | hmem
  · omega
  · have := (List.pairwise_cons.1 hord).1 last hmem
    omega

end Span

theorem Token.IsForm.runsOver (h : IsForm ts s) : s.RunsOver ts := by
  obtain ⟨o, xs, c, rfl, -, -, -, hs⟩ := h
  obtain ⟨-, rfl⟩ := Span.exists_of_make hs
  refine ⟨o, c, rfl, ?_, rfl, rfl⟩
  rw [← List.cons_append, List.getLast?_concat]

namespace Datum

variable {d : Datum} {ds : List Datum}

/-! ## What holds throughout data -/

/-- `P` holds of the datum and of all data within it. -/
def Throughout (P : Datum → Prop) (d : Datum) : Prop := ∀ e ∈ subdata d, P e

/-- `P` holds of the data and of all data within them. -/
def ThroughoutAll (P : Datum → Prop) (ds : List Datum) : Prop := ∀ e ∈ subdataAll ds, P e

section

variable {P : Datum → Prop}

theorem throughout_list : (list ds s).Throughout P ↔ P (list ds s) ∧ ThroughoutAll P ds := by
  simp only [Throughout, ThroughoutAll, subdata, List.mem_cons, forall_eq_or_imp]

theorem throughout_leaf {l : Lexeme} : (leaf l s).Throughout P ↔ P (leaf l s) :=
  List.forall_mem_singleton

theorem throughout_broken : (broken ts s).Throughout P ↔ P (broken ts s) :=
  List.forall_mem_singleton

theorem throughoutAll_nil : ThroughoutAll P [] := by simp [ThroughoutAll, subdataAll]

theorem throughoutAll_cons :
    ThroughoutAll P (d :: ds) ↔ d.Throughout P ∧ ThroughoutAll P ds := by
  simp only [ThroughoutAll, Throughout, subdataAll, List.mem_append, or_imp, forall_and]

end

/-! ## Data one behind the other -/

/-- The elements of a list stand between its brackets, one behind the other, and a malformed region
stands where its tokens do. -/
def IsSpaced : Datum → Prop
  | leaf _ _ => True
  | list ds s => (∀ d ∈ ds, s.start < d.span.start ∧ d.span.stop < s.stop) ∧
      (ds.map span).Pairwise Span.Precedes
  | broken ts s => s.RunsOver ts

/-- A datum that is spaced and stands between two offsets. -/
structure Sits (lo hi : Int) (d : Datum) : Prop where
  start : lo ≤ d.span.start
  nonempty : d.span.start < d.span.stop
  stop : d.span.stop ≤ hi
  spaced : d.Throughout IsSpaced

/-- Data that are spaced and stand between two offsets, one behind the other. -/
structure SitAll (lo hi : Int) (ds : List Datum) : Prop where
  bounds : ∀ d ∈ ds, lo ≤ d.span.start ∧ d.span.stop ≤ hi
  ordered : (ds.map span).Pairwise Span.Precedes
  spaced : ThroughoutAll IsSpaced ds

theorem SitAll.nil : SitAll lo hi [] := ⟨by simp, .nil, throughoutAll_nil⟩

theorem SitAll.cons {m : Int} (hd : d.Sits lo m) (hds : SitAll m hi ds) (hlo : lo ≤ m)
    (hhi : m ≤ hi) : SitAll lo hi (d :: ds) where
  bounds := by
    intro e he
    rcases List.mem_cons.1 he with rfl | he
    · have := hd.stop
      exact ⟨hd.start, by omega⟩
    · have := hds.bounds e he
      omega
  ordered := by
    refine List.pairwise_cons.2 ⟨?_, hds.ordered⟩
    intro t ht
    obtain ⟨e, he, rfl⟩ := List.mem_map.1 ht
    have hbefore := hd.nonempty
    have hstop := hd.stop
    have := hds.bounds e he
    exact ⟨by omega, by omega⟩
  spaced := throughoutAll_cons.2 ⟨hd.spaced, hds.spaced⟩

/-- A malformed region stands where its tokens do. -/
theorem sits_broken (h : s.RunsOver ts) (hts : Between P lo hi ts)
    (hord : ts.Pairwise fun t u => t.span.stop ≤ u.span.start) : (broken ts s).Sits lo hi := by
  obtain ⟨hlo, hne, hhi⟩ := h.bounds hts hord
  exact ⟨hlo, hne, hhi, throughout_broken.2 h⟩

/-- The first of some data and the others sit one behind the other, if they sit where their tokens
are. -/
theorem SitAll.of_flattenAll (hle : lo ≤ hi) (h : Between P lo hi (flattenAll (d :: ds)))
    (hord : (flattenAll (d :: ds)).Pairwise fun t u => t.span.stop ≤ u.span.start)
    (hd : ∀ m, Between P lo m d.flatten →
      (d.flatten.Pairwise fun t u => t.span.stop ≤ u.span.start) → d.Sits lo m)
    (hds : ∀ m, m ≤ hi → Between P m hi (flattenAll ds) →
      ((flattenAll ds).Pairwise fun t u => t.span.stop ≤ u.span.start) → SitAll m hi ds) :
    SitAll lo hi (d :: ds) := by
  obtain ⟨m, hlo, hhi, hone, hmore⟩ := exists_offset hle h hord
  obtain ⟨honeord, hmoreord, -⟩ := List.pairwise_append.1 hord
  exact .cons (hd m hone honeord) (hds m hhi hmore hmoreord) hlo hhi

mutual

/-- A datum sits where its tokens do, if these do not overlap. -/
theorem sits_of_isLegible (lo hi : Int) (depth : Nat) (d : Datum) (hd : d.IsLegible limit depth)
    (h : Between P lo hi d.flatten)
    (hord : d.flatten.Pairwise fun t u => t.span.stop ≤ u.span.start) : d.Sits lo hi := by
  cases d with
  | leaf l s =>
      obtain ⟨hlo, hne, hhi⟩ := h.bounds ⟨l, s⟩ (by simp [flatten])
      exact ⟨hlo, hne, hhi, throughout_leaf.2 trivial⟩
  | broken ts s => exact sits_broken hd.2.runsOver h hord
  | list ds s =>
      obtain ⟨hlo, hhi, hwide, hds, hdsord⟩ := Transformer.between_of_list h hord
      have hsits := sitAll_of_areLegible (s.start + 1) (s.stop - 1) hwide (depth + 1) ds hd hds
        hdsord
      refine ⟨hlo, (by omega : s.start < s.stop), hhi,
        throughout_list.2 ⟨⟨?_, hsits.ordered⟩, hsits.spaced⟩⟩
      intro d hd
      have := hsits.bounds d hd
      omega

/-- The same of a list of data. -/
theorem sitAll_of_areLegible (lo hi : Int) (hle : lo ≤ hi) (depth : Nat) (ds : List Datum)
    (hds : AreLegible limit depth ds) (h : Between P lo hi (flattenAll ds))
    (hord : (flattenAll ds).Pairwise fun t u => t.span.stop ≤ u.span.start) : SitAll lo hi ds := by
  cases ds with
  | nil => exact .nil
  | cons d ds =>
      exact .of_flattenAll hle h hord (fun m => sits_of_isLegible lo m depth d hds.1)
        fun m hm => sitAll_of_areLegible m hi hm depth ds hds.2

end

/-- All data of tokens that do not overlap sit one behind the other. -/
theorem sitAll_of_legible (h : Legible limit endOfInput ds) (hle : lo ≤ hi)
    (hts : Between P lo hi (flattenAll ds))
    (hord : (flattenAll ds).Pairwise fun t u => t.span.stop ≤ u.span.start) : SitAll lo hi ds := by
  induction h generalizing lo with
  | nil => exact .nil
  | stray ht more ih =>
      exact .of_flattenAll hle hts hord (fun m => sits_broken ⟨_, _, rfl, rfl, rfl, rfl⟩)
        fun m => ih
  | whole hd more ih =>
      exact .of_flattenAll hle hts hord (fun m => sits_of_isLegible lo m 0 _ hd) fun m => ih
  | never ht hconf hasc hs =>
      have hruns := Span.runsOver_of_cover (List.cons_ne_nil _ _) hs
      exact .of_flattenAll hle hts hord (fun m => sits_broken hruns) fun m _ _ _ => .nil

end Datum

end SchemeFront
