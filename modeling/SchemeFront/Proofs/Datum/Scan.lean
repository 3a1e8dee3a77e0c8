import SchemeFront.Proofs.Datum.Findings
import SchemeFront.Proofs.Datum.RoundTrip
import SchemeFront.Proofs.Token.Level

set_option autoImplicit false

/-! # Reading data against one scan of the brackets

`Datum.scan` goes through tokens once with a counter of open brackets, and has a finding at every
bracket that closes nothing and at every one that is opened where the counter is at the limit. What
the reader of data finds is what the scan finds, and at the end the outermost list that is never
closed (`Datum.scanEnd`). A list that is nested too deeply is skipped by the reader. The scan walks
through it, but inside the counter is above the limit (`Datum.scan_of_above`).
-/

namespace SchemeFront

namespace Datum

open Token

variable {limit : Int} {endOfInput : Span} {depth d e : Nat} {t : Token} {ts us xs : List Token}

/-! ## The scan -/

/-- What is found with `level` brackets open before `ts`. -/
def scan (limit : Int) : (level : Nat) → (ts : List Token) → List Diagnostic
  | _, [] => []
  | level, t :: ts =>
      if t.opens then
        (if level = limit.toNat then [Diagnostic.tooDeep limit t.span listName] else [])
          ++ scan limit (level + 1) ts
      else if t.closes then
        (if level = 0 then [strayClose t] else []) ++ scan limit (level - 1) ts
      else scan limit level ts

/-- What is found at the end of all tokens: brackets are open there. -/
def scanEnd (limit : Int) (endOfInput : Span) (ts : List Token) : List Diagnostic :=
  if 1 ≤ limit ∧ 0 < levelAfter 0 ts then (unclosed? ts).toList.map (neverClosed endOfInput)
  else []

@[simp] theorem scan_nil (limit : Int) (d : Nat) : scan limit d [] = [] := rfl

theorem scan_cons_of_opens (h : t.opens = true) (d : Nat) (ts : List Token) :
    scan limit d (t :: ts)
      = (if d = limit.toNat then [Diagnostic.tooDeep limit t.span listName] else [])
        ++ scan limit (d + 1) ts := by
  rw [scan, if_pos h]

theorem scan_cons_of_closes (h : t.closes = true) (d : Nat) (ts : List Token) :
    scan limit d (t :: ts)
      = (if d = 0 then [strayClose t] else []) ++ scan limit (d - 1) ts := by
  rw [scan, if_neg (by simp [opens_eq_false_of_closes h]), if_pos h]

theorem scan_succ_cons_of_closes (h : t.closes = true) (d : Nat) (ts : List Token) :
    scan limit (d + 1) (t :: ts) = scan limit d ts := by
  rw [scan_cons_of_closes h, if_neg (Nat.succ_ne_zero d), List.nil_append, Nat.add_sub_cancel]

theorem scan_cons_of_plain (ho : t.opens = false) (hc : t.closes = false) (d : Nat)
    (ts : List Token) : scan limit d (t :: ts) = scan limit d ts := by
  rw [scan, if_neg (by simp [ho]), if_neg (by simp [hc])]

theorem scan_append (limit : Int) (d : Nat) (ts us : List Token) :
    scan limit d (ts ++ us) = scan limit d ts ++ scan limit (levelAfter d ts) us := by
  induction ts generalizing d with
  | nil => rfl
  | cons t ts ih =>
      rw [List.cons_append]
      rcases bracket_cases t with ho | hc | ⟨ho, hc⟩
      · rw [scan_cons_of_opens ho, scan_cons_of_opens ho, ih, levelAfter_cons_of_opens ho,
          List.append_assoc]
      · rw [scan_cons_of_closes hc, scan_cons_of_closes hc, ih, levelAfter_cons_of_closes hc,
          List.append_assoc]
      · rw [scan_cons_of_plain ho hc, scan_cons_of_plain ho hc, ih, levelAfter_cons_of_plain ho hc]

/-- Behind a balanced list the scan goes on as before. -/
theorem scan_append_of_balanced (hx : Balanced xs) (d : Nat) (us : List Token) :
    scan limit d (xs ++ us) = scan limit d xs ++ scan limit d us := by
  rw [scan_append, hx.levelAfter]

/-- The scan of a form that is closed. -/
theorem scan_bracketed {c : Token} (ht : t.opens = true) (hx : Balanced xs) (hc : c.closes = true)
    (d : Nat) :
    scan limit d (t :: (xs ++ [c]))
      = (if d = limit.toNat then [Diagnostic.tooDeep limit t.span listName] else [])
        ++ scan limit (d + 1) xs := by
  rw [scan_cons_of_opens ht, scan_append_of_balanced hx, scan_succ_cons_of_closes hc, scan_nil,
    List.append_nil]

/-- Nothing is found inside a list that is nested too deeply. -/
theorem scan_of_above (h : (openAfter d ts).isSome) (habove : limit.toNat < e) :
    scan limit (e + d) ts = [] := by
  induction ts generalizing d with
  | nil => rfl
  | cons t ts ih =>
      rcases bracket_cases t with ho | hc | ⟨ho, hc⟩
      · rw [openAfter_cons_of_opens ho] at h
        rw [scan_cons_of_opens ho, if_neg (by omega), List.nil_append]
        exact ih h
      · cases d with
        | zero => simp [openAfter_zero_cons_of_closes hc] at h
        | succ d =>
            rw [openAfter_cons_of_closes hc] at h
            rw [← Nat.add_assoc, scan_succ_cons_of_closes hc]
            exact ih h
      · rw [openAfter_cons_of_plain ho hc] at h
        rw [scan_cons_of_plain ho hc]
        exact ih h

/-! ## One datum -/

/-- What is found while a datum is read from `ts`, inside `depth` lists: what the scan finds in the
tokens that were taken, and what is said of a list that is never closed. -/
inductive Reading.Scans (limit : Int) (endOfInput : Span) (depth : Nat) :
    List Token → Reading Datum → Prop
  | whole {xs rest : List Token} {d : Datum} (hx : Balanced xs) :
      Scans limit endOfInput depth (xs ++ rest) ⟨d, scan limit depth xs, depth, rest⟩
  | never {t : Token} {ts : List Token} {d : Datum} (ht : t.opens = true) (hts : Confined ts) :
      Scans limit endOfInput depth (t :: ts)
        ⟨d, scan limit depth (t :: ts) ++ lateNotes limit endOfInput depth t, depth, []⟩

/-- Inside another list nothing more is said, so the scan can go on behind the datum. -/
theorem Reading.Scans.inside {r : Reading Datum} (h : r.Scans limit endOfInput (depth + 1) ts) :
    r.notes ++ scan limit (depth + 1) r.rest = scan limit (depth + 1) ts := by
  cases h with
  | whole hx => exact (scan_append_of_balanced hx _ _).symm
  | @never t ts d ht hts =>
      have hlate : lateNotes limit endOfInput (depth + 1) t = [] := if_neg (by omega)
      rw [scan_nil, List.append_nil, hlate, List.append_nil]

/-- A list is nested too deeply where the counter is at the limit. -/
theorem scans_of_refuse {r : Reading Datum} (ht : t.opens = true) (hdepth : depth = limit.toNat)
    (h : refuse limit endOfInput depth t ts = .ok r) :
    r.Scans limit endOfInput depth (t :: ts) := by
  obtain ⟨span, -, hr⟩ := exists_of_bind_eq_ok h
  cases hr
  rcases closed_or_confined ts with ⟨xs, c, us, rfl, hx, hc⟩ | hconf
  · rw [take_extent_of_balanced ht hx hc, drop_extent_of_balanced ht hx hc]
    have hnotes : scan limit depth (t :: (xs ++ [c]))
        = [Diagnostic.tooDeep limit t.span listName] := by
      have hinside : scan limit (depth + 1 + 0) xs = [] := scan_of_above hx.confined (by omega)
      rw [scan_bracketed ht hx hc, if_pos hdepth, hinside, List.append_nil]
    have key : Reading.Scans limit endOfInput depth (t :: (xs ++ [c]) ++ us)
        ⟨broken (t :: (xs ++ [c])) span, _, depth, us⟩ := .whole (hx.bracketed ht hc)
    rw [hnotes] at key
    simpa using key
  · rw [take_extent_of_confined ht hconf, drop_extent_of_confined ht hconf]
    have hnotes : scan limit depth (t :: ts) = [Diagnostic.tooDeep limit t.span listName] := by
      have hinside : scan limit (depth + 1 + 0) ts = [] := scan_of_above hconf (by omega)
      rw [scan_cons_of_opens ht, if_pos hdepth, hinside, List.append_nil]
    have hlate : lateNotes limit endOfInput depth t = [] := if_neg (by omega)
    have key : Reading.Scans limit endOfInput depth (t :: ts)
        ⟨broken (t :: ts) span, _, depth, []⟩ := .never ht hconf
    rwa [hnotes, hlate, List.append_nil] at key

/-- A list below the limit is scanned from its elements. -/
theorem scans_of_finish {elements : Reading Elements} {r : Reading Datum} (ht : t.opens = true)
    (hdepth : depth < limit) (hel : elements.Gathers limit (depth + 1) ts)
    (hnotes : elements.notes ++ scan limit depth elements.rest = scan limit (depth + 1) ts)
    (h : finish endOfInput t ts elements = .ok r) :
    r.Scans limit endOfInput depth (t :: ts) := by
  have hleave : elements.depth - 1 = depth := by rw [hel.depth_eq, Nat.add_sub_cancel]
  have hbelow : ¬ depth = limit.toNat := by omega
  unfold finish at h
  cases hclosing : elements.value.closing with
  | some c =>
      rw [hclosing] at h
      cases h
      obtain ⟨xs, rfl, hx, hc, -, -⟩ := hel.closed c hclosing
      have hinside : elements.notes = scan limit (depth + 1) xs := by
        rw [scan_append_of_balanced hx, scan_succ_cons_of_closes hc] at hnotes
        exact List.append_cancel_right hnotes
      have key : Reading.Scans limit endOfInput depth (t :: (xs ++ [c]) ++ elements.rest)
          ⟨list elements.value.children (t.span.join c.span), _, depth, elements.rest⟩ :=
        .whole (hx.bracketed ht hc)
      rw [scan_bracketed ht hx hc, if_neg hbelow, List.nil_append, ← hinside] at key
      rw [hleave]
      simpa using key
  | none =>
      rw [hclosing] at h
      obtain ⟨span, -, hr⟩ := exists_of_bind_eq_ok h
      cases hr
      obtain ⟨hconf, hrest, -⟩ := hel.unclosed hclosing
      rw [hrest, scan_nil, List.append_nil] at hnotes
      have hlate : lateNotes limit endOfInput depth t
          = if elements.depth = 1 then [neverClosed endOfInput t] else [] := by
        have hiff : depth = 0 ∧ 0 < limit ↔ depth + 1 = 1 := by omega
        simp only [lateNotes, hel.depth_eq, hiff]
      have key : Reading.Scans limit endOfInput depth (t :: ts)
          ⟨broken (t :: ts) span, _, depth, []⟩ := .never ht hconf
      rw [scan_cons_of_opens ht, if_neg hbelow, List.nil_append, ← hnotes, hlate] at key
      rw [hleave, hrest]
      exact key

mutual

/-- What is found while a datum is read. -/
theorem scans_of_read (limit : Int) (endOfInput : Span) (fuel depth : Nat) (t : Token)
    (ts : List Token) {r : Reading Datum} (ht : t.closes = false) (hdepth : depth ≤ limit.toNat)
    (h : read limit endOfInput fuel depth t ts = .ok r) :
    r.Scans limit endOfInput depth (t :: ts) := by
  cases fuel with
  | zero => cases h
  | succ fuel =>
      rw [read] at h
      cases ho : t.opens with
      | false =>
          rw [if_pos (by simp [ho])] at h
          cases h
          have key : Reading.Scans limit endOfInput depth ([t] ++ ts)
              ⟨leaf t.lexeme t.span, _, depth, ts⟩ := .whole (balanced_singleton ho ht)
          rwa [scan_cons_of_plain ho ht, scan_nil] at key
      | true =>
          rw [if_neg (by simp [ho])] at h
          split at h
          · exact scans_of_refuse ho (by omega) h
          · rename_i hbelow
            obtain ⟨elements, hel, hr⟩ := exists_of_bind_eq_ok h
            have hgathers : elements.Gathers limit (depth + 1) ts :=
              gathers_of_readElements limit endOfInput fuel depth ts hel
            have hnotes : elements.notes ++ scan limit depth elements.rest
                = scan limit (depth + 1) ts :=
              scan_of_readElements limit endOfInput fuel depth ts (by omega) hel
            exact scans_of_finish ho (Int.not_le.1 hbelow) hgathers hnotes hr

/-- What is found in the elements of a list. Behind the closing bracket the counter is back at what
it was before the list. -/
theorem scan_of_readElements (limit : Int) (endOfInput : Span) (fuel depth : Nat)
    (ts : List Token) {r : Reading Elements} (hdepth : depth + 1 ≤ limit.toNat)
    (h : readElements limit endOfInput fuel (depth + 1) ts = .ok r) :
    r.notes ++ scan limit depth r.rest = scan limit (depth + 1) ts := by
  cases fuel with
  | zero => cases h
  | succ fuel =>
      cases ts with
      | nil =>
          cases h
          rfl
      | cons t ts =>
          rw [readElements] at h
          cases hc : t.closes with
          | true =>
              rw [if_pos hc] at h
              cases h
              rw [scan_succ_cons_of_closes hc, List.nil_append]
          | false =>
              rw [if_neg (by simp [hc])] at h
              obtain ⟨first, hfirst, h⟩ := exists_of_bind_eq_ok h
              obtain ⟨more, hmore, hr⟩ := exists_of_bind_eq_ok h
              cases hr
              have hone : first.Scans limit endOfInput (depth + 1) (t :: ts) :=
                scans_of_read limit endOfInput fuel (depth + 1) t ts hc hdepth hfirst
              rw [(settles_of_read limit endOfInput fuel (depth + 1) t ts hc hfirst).depth_eq]
                at hmore
              have hall : more.notes ++ scan limit depth more.rest
                  = scan limit (depth + 1) first.rest :=
                scan_of_readElements limit endOfInput fuel depth first.rest hdepth hmore
              rw [List.append_assoc, hall, hone.inside]

end

/-! ## All data -/

/-- What is found at the end is said of the tokens behind a balanced list as well. -/
theorem scanEnd_append_of_balanced (hx : Balanced xs) (us : List Token) :
    scanEnd limit endOfInput (xs ++ us) = scanEnd limit endOfInput us := by
  simp only [scanEnd, levelAfter_append, hx.levelAfter, hx.unclosed?_append]

theorem scanEnd_cons_of_closes (hc : t.closes = true) (ts : List Token) :
    scanEnd limit endOfInput (t :: ts) = scanEnd limit endOfInput ts := by
  simp only [scanEnd, levelAfter_cons_of_closes hc, Nat.zero_sub,
    unclosed?_cons_of_not_opens (opens_eq_false_of_closes hc)]

/-- At the end of a list that is never closed, this is what is found late. -/
theorem scanEnd_of_confined (ht : t.opens = true) (h : Confined ts) :
    scanEnd limit endOfInput (t :: ts) = lateNotes limit endOfInput 0 t := by
  have hopen : unclosed? (t :: ts) = some t := unclosed?_of_confined ht h
  have hlevel : 0 < levelAfter 0 (t :: ts) := by
    rw [levelAfter_pos_iff, hopen]
    rfl
  have hiff : 1 ≤ limit ∧ 0 < levelAfter 0 (t :: ts) ↔ (0 : Nat) = 0 ∧ 0 < limit := by omega
  simp only [scanEnd, lateNotes, hiff, hopen, Option.toList_some, List.map_cons, List.map_nil]

/-- What is found while all data are read. -/
theorem notes_of_readFrom {rounds : Nat} {r : Reading (List Datum)}
    (h : readFrom limit endOfInput rounds 0 ts = .ok r) :
    r.notes = scan limit 0 ts ++ scanEnd limit endOfInput ts := by
  have hnil : scan limit 0 [] ++ scanEnd limit endOfInput [] = [] := by simp [scanEnd]
  induction rounds generalizing ts r with
  | zero =>
      cases ts with
      | nil =>
          cases h
          exact hnil.symm
      | cons t ts => cases h
  | succ rounds ih =>
      cases ts with
      | nil =>
          cases h
          exact hnil.symm
      | cons t ts =>
          rw [readFrom] at h
          obtain ⟨first, hfirst, h⟩ := exists_of_bind_eq_ok h
          obtain ⟨more, hmore, hr⟩ := exists_of_bind_eq_ok h
          cases hr
          rw [readNext] at hfirst
          cases hc : t.closes with
          | true =>
              rw [if_pos hc] at hfirst
              cases hfirst
              rw [ih hmore, scan_cons_of_closes hc, if_pos rfl, scanEnd_cons_of_closes hc,
                List.append_assoc]
          | false =>
              rw [if_neg (by simp [hc])] at hfirst
              have hscans : first.Scans limit endOfInput 0 (t :: ts) :=
                scans_of_read limit endOfInput _ 0 t ts hc (Nat.zero_le _) hfirst
              generalize t :: ts = us at hscans
              cases hscans with
              | whole hx =>
                  rw [ih hmore, scan_append_of_balanced hx, scanEnd_append_of_balanced hx,
                    List.append_assoc]
              | never ht hts =>
                  -- All tokens were taken, so nothing more is read.
                  rw [ih hmore, hnil, List.append_nil, scanEnd_of_confined ht hts]

/-! ## Scans without findings -/

/-- Nothing is found by a scan if every bracket closes one that was opened, and all are opened below
the limit. -/
theorem scan_eq_nil_iff (hd : d ≤ limit.toNat) :
    scan limit d ts = [] ↔ (openAfter d ts).isSome ∧ OpensBelow limit d ts := by
  induction ts generalizing d with
  | nil => simp [OpensBelow]
  | cons t ts ih =>
      rw [opensBelow_cons]
      rcases bracket_cases t with ho | hc | ⟨ho, hc⟩
      · rw [scan_cons_of_opens ho, openAfter_cons_of_opens ho, levelAfter_cons_of_opens ho,
          levelAfter_nil]
        by_cases hat : d = limit.toNat
        · -- At the limit something is found, and the bracket is not below it.
          have hnot : ¬ (d : Int) < limit := by omega
          rw [if_pos hat]
          constructor
          · intro h
            cases h
          · rintro ⟨-, hbelow, -⟩
            exact absurd (hbelow ho) hnot
        · have hbelow : (d : Int) < limit := by omega
          rw [if_neg hat, List.nil_append, ih (by omega)]
          simp [hbelow]
      · have hplain : t.opens = false := opens_eq_false_of_closes hc
        cases d with
        | zero => simp [scan_cons_of_closes hc, openAfter_zero_cons_of_closes hc]
        | succ d =>
            rw [scan_succ_cons_of_closes hc, openAfter_cons_of_closes hc,
              levelAfter_cons_of_closes hc, levelAfter_nil, Nat.add_sub_cancel, ih (by omega)]
            simp [hplain]
      · rw [scan_cons_of_plain ho hc, openAfter_cons_of_plain ho hc, levelAfter_cons_of_plain ho hc,
          levelAfter_nil, ih hd]
        simp [ho]

/-- Nothing is found at the end if no bracket is open there. -/
theorem scanEnd_eq_nil_iff :
    scanEnd limit endOfInput ts = [] ↔ ¬ (1 ≤ limit ∧ 0 < levelAfter 0 ts) := by
  unfold scanEnd
  split
  · rename_i h
    obtain ⟨o, ho⟩ := Option.isSome_iff_exists.1 ((levelAfter_pos_iff ts).1 h.2)
    simp [ho, h]
  · rename_i h
    simp [h]

/-- Nothing is found at all if the brackets are balanced and opened below the limit. -/
theorem scan_append_scanEnd_eq_nil_iff (endOfInput : Span) :
    scan limit 0 ts ++ scanEnd limit endOfInput ts = [] ↔ Balanced ts ∧ OpensBelow limit 0 ts := by
  rw [List.append_eq_nil_iff, scan_eq_nil_iff (Nat.zero_le _), scanEnd_eq_nil_iff]
  constructor
  · rintro ⟨⟨hsome, hbelow⟩, hend⟩
    refine ⟨?_, hbelow⟩
    obtain ⟨e, he⟩ := Option.isSome_iff_exists.1 hsome
    have hlevel : levelAfter 0 ts = e := levelAfter_of_openAfter he
    rcases Nat.eq_zero_or_pos e with rfl | hpos
    · exact he
    · -- A bracket that is open at the end was opened, so the limit is not zero.
      rw [← hlevel] at hpos
      obtain ⟨o, ho⟩ := Option.isSome_iff_exists.1 ((levelAfter_pos_iff ts).1 hpos)
      obtain ⟨before, after, hts, hopens, -⟩ := isFirstUnclosed_of_mem ho
      have hlimit := hbelow before o after hts hopens
      exact absurd ⟨by omega, hpos⟩ hend
  · rintro ⟨hbal, hbelow⟩
    have hlevel : levelAfter 0 ts = 0 := hbal.levelAfter 0
    exact ⟨⟨hbal.confined, hbelow⟩, by omega⟩

/-- **Reading finds what one scan of the brackets finds.** Of the tokens of a source, the findings
are those of the scan in its order, and at the end, if lists can be read at all and brackets are
open, one about the first bracket that is never closed. So nothing is found if and only if the
brackets are balanced and are opened only below the limit. -/
theorem ofTokens_eq_scan {src : Source} {l : Lexed} (limit : Int)
    (hl : Lexed.ofSource src = .ok l) :
    (∃ data atEnd,
      ofTokens limit src l.tokens
        = .ok (data, Report.of? .syntactic (scan limit 0 l.tokens ++ atEnd) src) ∧
      (1 ≤ limit ∧ 0 < levelAfter 0 l.tokens →
        ∃ o, IsFirstUnclosed l.tokens o ∧ atEnd = [neverClosed src.endOfInput o]) ∧
      (¬ (1 ≤ limit ∧ 0 < levelAfter 0 l.tokens) → atEnd = [])) ∧
    ((∃ data, ofTokens limit src l.tokens = .ok (data, none))
      ↔ Balanced l.tokens ∧ OpensBelow limit 0 l.tokens) := by
  obtain ⟨r, hr, -⟩ := exists_readAll limit hl
  have hnotes : r.notes = scan limit 0 l.tokens ++ scanEnd limit src.endOfInput l.tokens :=
    notes_of_readFrom hr
  have hdata : ofTokens limit src l.tokens
      = .ok (r.value, Report.of? .syntactic r.notes src) := by
    rw [ofTokens, hr]
    rfl
  constructor
  · rw [hnotes] at hdata
    refine ⟨r.value, scanEnd limit src.endOfInput l.tokens, hdata, ?_, scanEnd_eq_nil_iff.2⟩
    intro h
    obtain ⟨o, ho⟩ := Option.isSome_iff_exists.1 ((levelAfter_pos_iff _).1 h.2)
    refine ⟨o, isFirstUnclosed_of_mem ho, ?_⟩
    rw [scanEnd, if_pos h, ho]
    rfl
  · rw [hdata, ← scan_append_scanEnd_eq_nil_iff src.endOfInput, ← hnotes]
    simp [Report.of?]

/-- A bracket that closes nothing, a list that is too deep with another in it, and a list that is
never closed. -/
theorem ofTokens_eq_scan_brackets :
    ∃ l, Lexed.ofSource ⟨"a.scm", ") (a (b (c))) (d".toList⟩ = .ok l ∧
      (∃ data atEnd,
        ofTokens 1 ⟨"a.scm", ") (a (b (c))) (d".toList⟩ l.tokens
          = .ok (data, Report.of? .syntactic (scan 1 0 l.tokens ++ atEnd)
              ⟨"a.scm", ") (a (b (c))) (d".toList⟩) ∧
        (scan 1 0 l.tokens).map Diagnostic.span
          = [⟨"a.scm", 0, 1, by decide⟩, ⟨"a.scm", 5, 6, by decide⟩] ∧
        ∃ o, IsFirstUnclosed l.tokens o ∧
          atEnd = [neverClosed (Source.endOfInput ⟨"a.scm", ") (a (b (c))) (d".toList⟩) o]) ∧
      ¬ (Balanced l.tokens ∧ OpensBelow 1 0 l.tokens) := by
  obtain ⟨l, hl⟩ : ∃ l, Lexed.ofSource ⟨"a.scm", ") (a (b (c))) (d".toList⟩ = .ok l := ⟨_, rfl⟩
  have hscan : (scan 1 0 l.tokens).map Diagnostic.span
      = [⟨"a.scm", 0, 1, by decide⟩, ⟨"a.scm", 5, 6, by decide⟩] := by
    cases hl
    decide +kernel
  have hlevel : 0 < levelAfter 0 l.tokens := by
    cases hl
    decide +kernel
  obtain ⟨⟨data, atEnd, hdata, hend, -⟩, -⟩ := ofTokens_eq_scan 1 hl
  refine ⟨l, hl, ⟨data, atEnd, hdata, hscan, hend ⟨by decide, hlevel⟩⟩, ?_⟩
  rintro ⟨hbal, -⟩
  rw [hbal.levelAfter 0] at hlevel
  exact absurd hlevel (Nat.lt_irrefl 0)

end Datum

end SchemeFront
