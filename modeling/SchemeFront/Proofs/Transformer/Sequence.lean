import SchemeFront.Proofs.Lexer.Layout
import SchemeFront.Transformer.Begin

set_option autoImplicit false

/-! # Expanding sequences

The rule for sequences puts new brackets where the name `begin` stands, so the tokens behind it
overlap. But if the tokens were separate before, their starts still never decrease, none of them
ends behind a bracket that is closed later (`expand_sequence`), and no list is headed by `begin`
any more. So the rule cannot fail, and using it again changes nothing (`runAll_sequence`).
-/

namespace SchemeFront

open Token

variable {P : Lexeme → Prop} {lo hi m : Int} {ts us : List Token}

/-! ## Tokens between two offsets -/

namespace Token

/-- Tokens between two offsets, none of them empty. `P` holds of what they say. -/
structure Between (P : Lexeme → Prop) (lo hi : Int) (ts : List Token) : Prop where
  bounds : ∀ t ∈ ts, lo ≤ t.span.start ∧ t.span.start < t.span.stop ∧ t.span.stop ≤ hi
  holds : ∀ t ∈ ts, P t.lexeme

theorem Between.append (ht : Between P lo hi ts) (hu : Between P lo hi us) :
    Between P lo hi (ts ++ us) where
  bounds t h := (List.mem_append.1 h).elim (ht.bounds t) (hu.bounds t)
  holds t h := (List.mem_append.1 h).elim (ht.holds t) (hu.holds t)

theorem Between.cons {t : Token} (hlo : lo ≤ t.span.start) (hne : t.span.start < t.span.stop)
    (hhi : t.span.stop ≤ hi) (hP : P t.lexeme) (h : Between P lo hi ts) :
    Between P lo hi (t :: ts) where
  bounds := by
    intro u hu
    rcases List.mem_cons.1 hu with rfl | hu
    · exact ⟨hlo, hne, hhi⟩
    · exact h.bounds u hu
  holds := by
    intro u hu
    rcases List.mem_cons.1 hu with rfl | hu
    · exact hP
    · exact h.holds u hu

theorem Between.nil : Between P lo hi [] := ⟨by simp, by simp⟩

theorem Between.mono {lo' hi' : Int} (h : Between P lo hi ts) (hlo : lo' ≤ lo) (hhi : hi ≤ hi') :
    Between P lo' hi' ts where
  bounds t ht := by
    have := h.bounds t ht
    omega
  holds := h.holds

/-- Tokens that do not overlap can be divided at an offset. -/
theorem exists_offset (hle : lo ≤ hi) (h : Between P lo hi (ts ++ us))
    (hord : (ts ++ us).Pairwise fun t u => t.span.stop ≤ u.span.start) :
    ∃ m, lo ≤ m ∧ m ≤ hi ∧ Between P lo m ts ∧ Between P m hi us := by
  obtain ⟨-, hus, hcross⟩ := List.pairwise_append.1 hord
  have hP : ∀ t ∈ ts ++ us, P t.lexeme := h.holds
  cases us with
  | nil => exact ⟨hi, hle, Int.le_refl hi, by simpa using h, .nil⟩
  | cons u us =>
      have hu := h.bounds u (by simp)
      -- The offset is where the first token of the second part begins.
      refine ⟨u.span.start, hu.1, by omega, ⟨?_, ?_⟩, ⟨?_, ?_⟩⟩
      · intro t ht
        have htb := h.bounds t (by simp [ht])
        have := hcross t ht u (by simp)
        omega
      · exact fun t ht => hP t (by simp [ht])
      · intro v hv
        have hvb := h.bounds v (List.mem_append_right _ hv)
        rcases List.mem_cons.1 hv with rfl | hv
        · omega
        · have := (List.pairwise_cons.1 hus).1 v hv
          omega
      · exact fun v hv => hP v (List.mem_append_right _ hv)

/-- Lists of tokens in order, one before an offset and one behind it, are in order together. -/
theorem Ascending.append_of_between (ht : Ascending ts) (hu : Ascending us)
    (htb : Between P lo m ts) (hub : Between P m hi us) : Ascending (ts ++ us) := by
  refine List.pairwise_append.2 ⟨ht, hu, ?_⟩
  intro t htm u hum
  have := htb.bounds t htm
  have := hub.bounds u hum
  omega

theorem Enclosing.append_of_between (ht : Enclosing ts) (hu : Enclosing us)
    (htb : Between P lo m ts) (hub : Between P m hi us) : Enclosing (ts ++ us) := by
  refine List.pairwise_append.2 ⟨ht, hu, ?_⟩
  intro t htm u hum _
  have := htb.bounds t htm
  have := hub.bounds u hum
  omega

end Token

/-! ## What the rule does -/

namespace Datum

/-- No list in the datum is headed by `begin`. -/
def IsPlain (d : Datum) : Prop := ∀ e ∈ subdata d, e.isHeadedBy Transformer.beginName = false

/-- No list in the data is headed by `begin`. -/
def ArePlain (ds : List Datum) : Prop :=
  ∀ e ∈ subdataAll ds, e.isHeadedBy Transformer.beginName = false

theorem arePlain_cons {d : Datum} {ds : List Datum} :
    ArePlain (d :: ds) ↔ d.IsPlain ∧ ArePlain ds := by
  simp only [ArePlain, IsPlain, subdataAll, List.mem_append, or_imp, forall_and]

theorem isPlain_leaf (l : Lexeme) (s : Span) : (leaf l s).IsPlain :=
  List.forall_mem_singleton.2 rfl

theorem isPlain_broken (ts : List Token) (s : Span) : (broken ts s).IsPlain :=
  List.forall_mem_singleton.2 rfl

theorem isPlain_list {ds : List Datum} {s : Span} :
    (list ds s).IsPlain ↔ (list ds s).isHeadedBy Transformer.beginName = false ∧ ArePlain ds := by
  simp only [IsPlain, ArePlain, subdata, List.mem_cons, forall_eq_or_imp]

end Datum

namespace Transformer

/-- A list that is not headed by `begin` stays. -/
theorem expandBegin_of_not_headed {d : Datum} (h : d.isHeadedBy beginName = false) :
    expandBegin d = .ok d := by
  cases d with
  | list ds s =>
      cases ds with
      | nil => rfl
      | cons head body =>
          rw [expandBegin, if_neg (by simp [h])]
          rfl
  | _ => rfl

/-- A sequence becomes a call. -/
theorem expandBegin_of_headed {l : Lexeme} {hs s : Span} {body : List Datum}
    (h : l.name? = some beginName) (hle : hs.start ≤ s.stop) :
    expandBegin (.list (.leaf l hs :: body) s) =
      .ok (.list [.list (.leaf (.keyword .lambda) hs :: .list [] hs :: body)
        ⟨s.path, hs.start, s.stop, hle⟩] s) := by
  rw [expandBegin, if_pos (by simp [Datum.isHeadedBy, Datum.name?, h])]
  rw [Datum.span, Span.make_of_le hle]
  rfl

/-- A datum whose tokens are in order between two offsets, each within the brackets around it,
and in which no list is headed by `begin`. -/
structure Spread (P : Lexeme → Prop) (lo hi : Int) (d : Datum) : Prop where
  between : Between P lo hi d.flatten
  ascending : Ascending d.flatten
  enclosing : Enclosing d.flatten
  plain : d.IsPlain

/-- The same of a list of data. -/
structure SpreadAll (P : Lexeme → Prop) (lo hi : Int) (ds : List Datum) : Prop where
  between : Between P lo hi (Datum.flattenAll ds)
  ascending : Ascending (Datum.flattenAll ds)
  enclosing : Enclosing (Datum.flattenAll ds)
  plain : Datum.ArePlain ds

theorem SpreadAll.nil : SpreadAll P lo hi [] where
  between := .nil
  ascending := .nil
  enclosing := .nil
  plain := by simp [Datum.ArePlain, Datum.subdataAll]

theorem SpreadAll.cons {d : Datum} {ds : List Datum} (hd : Spread P lo m d)
    (hds : SpreadAll P m hi ds) (hlo : lo ≤ m) (hhi : m ≤ hi) : SpreadAll P lo hi (d :: ds) where
  between := (hd.between.mono (Int.le_refl lo) hhi).append (hds.between.mono hlo (Int.le_refl hi))
  ascending := hd.ascending.append_of_between hds.ascending hd.between hds.between
  enclosing := hd.enclosing.append_of_between hds.enclosing hd.between hds.between
  plain := Datum.arePlain_cons.2 ⟨hd.plain, hds.plain⟩

/-- What begins where a leaf does may follow it, if no bracket in it is closed before the leaf
ends. -/
theorem SpreadAll.consLeaf {l : Lexeme} {s : Span} {ds : List Datum} (hl : P l)
    (hne : s.start < s.stop) (hhi : s.stop ≤ hi) (hds : SpreadAll P s.start hi ds)
    (hends : ∀ t ∈ Datum.flattenAll ds, t.closes = true → s.stop ≤ t.span.stop) :
    SpreadAll P s.start hi (.leaf l s :: ds) where
  between := .cons (Int.le_refl _) hne hhi hl hds.between
  ascending := List.pairwise_cons.2 ⟨fun t ht => (hds.between.bounds t ht).1, hds.ascending⟩
  enclosing := List.pairwise_cons.2 ⟨hends, hds.enclosing⟩
  plain := Datum.arePlain_cons.2 ⟨Datum.isPlain_leaf l s, hds.plain⟩

/-- The brackets of a list are around what is in it. -/
theorem Spread.list {ds : List Datum} {s : Span} (hkey : ∀ k, P (.keyword k))
    (hlo : lo ≤ s.start) (hhi : s.stop ≤ hi) (hne : s.start < s.stop)
    (hds : SpreadAll P s.start s.stop ds)
    (hhead : (Datum.list ds s).isHeadedBy beginName = false) : Spread P lo hi (.list ds s) where
  between := by
    have hopen : Between P lo hi [⟨.keyword .opening, s.first⟩] :=
      .cons hlo (by rw [Span.first_start, Span.first_stop]; omega)
        (by rw [Span.first_stop]; omega) (hkey _) .nil
    have hclose : Between P lo hi [⟨.keyword .closing, s.final⟩] :=
      .cons (by rw [Span.final_start]; omega) (by rw [Span.final_start, Span.final_stop]; omega)
        (by rw [Span.final_stop]; exact hhi) (hkey _) .nil
    exact (hopen.append (hds.between.mono hlo hhi)).append hclose
  ascending := by
    refine List.pairwise_append.2 ⟨List.pairwise_cons.2 ⟨?_, hds.ascending⟩,
      List.pairwise_singleton .., ?_⟩
    · intro t ht
      exact (hds.between.bounds t ht).1
    · intro t ht c hc
      obtain rfl := List.mem_singleton.1 hc
      rw [Span.final_start]
      rcases List.mem_cons.1 ht with rfl | ht
      · rw [Span.first_start]
        omega
      · have := hds.between.bounds t ht
        omega
  enclosing := by
    refine List.pairwise_append.2 ⟨List.pairwise_cons.2 ⟨?_, hds.enclosing⟩,
      List.pairwise_singleton .., ?_⟩
    · intro t ht _
      have := hds.between.bounds t ht
      rw [Span.first_stop]
      omega
    · intro t ht c hc _
      obtain rfl := List.mem_singleton.1 hc
      rw [Span.final_stop]
      rcases List.mem_cons.1 ht with rfl | ht
      · rw [Span.first_stop]
        omega
      · exact (hds.between.bounds t ht).2.2
  plain := Datum.isPlain_list.2 ⟨hhead, hds.plain⟩

/-- The call that a sequence stands for. -/
theorem Spread.call {body : List Datum} {s hs : Span} (hkey : ∀ k, P (.keyword k))
    (hlo : lo ≤ s.start) (hhi : s.stop ≤ hi) (hstart : s.start ≤ hs.start)
    (hne : hs.start < hs.stop) (hstop : hs.stop ≤ s.stop)
    (hbody : SpreadAll P hs.stop s.stop body) (hle : hs.start ≤ s.stop) :
    Spread P lo hi (.list [.list (.leaf (.keyword .lambda) hs :: .list [] hs :: body)
      ⟨s.path, hs.start, s.stop, hle⟩] s) := by
  -- The brackets of the parameters stand on the name, the bracket of the procedure before it.
  have formals : Spread P hs.start hs.stop (.list [] hs) :=
    .list hkey (Int.le_refl _) (Int.le_refl _) hne .nil rfl
  have procedure : Spread P s.start s.stop
      (.list (.leaf (.keyword .lambda) hs :: .list [] hs :: body)
        ⟨s.path, hs.start, s.stop, hle⟩) := by
    refine .list hkey hstart (Int.le_refl _) (by simp only; omega) ?_ rfl
    refine .consLeaf (hkey _) hne hstop (.cons formals hbody (by omega) hstop) ?_
    intro t ht hclose
    rcases List.mem_append.1 ht with ht | ht
    · simp only [Datum.flatten, Datum.flattenAll, List.singleton_append, List.mem_cons,
        List.not_mem_nil, or_false] at ht
      rcases ht with rfl | rfl
      · cases hclose
      · exact Int.le_of_eq (Span.final_stop hs).symm
    · have := hbody.between.bounds t ht
      omega
  refine .list hkey hlo hhi (by omega) ?_ rfl
  exact .cons procedure (m := s.stop) .nil (by omega) (Int.le_refl _)

/-! ## Expansion -/

/-- Expanding a list of elements gives the list of the expanded elements, or the call it stands
for. -/
theorem expand_list_eq {ds es : List Datum} {s : Span} (h : expandAll sequence ds = .ok (es, [])) :
    expand sequence (.list ds s) = (expandBegin (.list es s)).map (·, []) := by
  rw [expand, h]
  simp only [bind, Except.bind, sequence]
  cases expandBegin (.list es s) <;> rfl

theorem expandAll_cons_eq {d e : Datum} {ds es : List Datum}
    (h : expand sequence d = .ok (e, [])) (hs : expandAll sequence ds = .ok (es, [])) :
    expandAll sequence (d :: ds) = .ok (e :: es, []) := by
  rw [expandAll, h]
  simp only [bind, Except.bind, hs]
  rfl

/-- What is between the brackets of a list lies strictly between its ends. -/
theorem between_of_list {ds : List Datum} {s : Span} (h : Between P lo hi (Datum.list ds s).flatten)
    (hord : (Datum.list ds s).flatten.Pairwise fun t u => t.span.stop ≤ u.span.start) :
    lo ≤ s.start ∧ s.stop ≤ hi ∧ s.start + 1 ≤ s.stop - 1 ∧
      Between P (s.start + 1) (s.stop - 1) (Datum.flattenAll ds) ∧
      (Datum.flattenAll ds).Pairwise fun t u => t.span.stop ≤ u.span.start := by
  rw [Datum.flatten] at h hord
  obtain ⟨hfront, -, hclose⟩ := List.pairwise_append.1 hord
  rw [List.pairwise_cons] at hfront
  have hopen := (h.bounds ⟨.keyword .opening, s.first⟩ (by simp)).1
  have hfinal := (h.bounds ⟨.keyword .closing, s.final⟩ (by simp)).2.2
  have hends := hclose ⟨.keyword .opening, s.first⟩ (by simp) ⟨.keyword .closing, s.final⟩ (by simp)
  simp only [Span.first_start, Span.final_stop, Span.first_stop, Span.final_start]
    at hopen hfinal hends
  refine ⟨hopen, hfinal, hends, ⟨?_, ?_⟩, hfront.2⟩
  · intro t ht
    have hfirst := hfront.1 t ht
    have hlast := hclose t (by simp [ht]) ⟨.keyword .closing, s.final⟩ (by simp)
    exact ⟨hfirst, (h.bounds t (by simp [ht])).2.1, hlast⟩
  · intro t ht
    exact h.holds t (by simp [ht])

mutual

/-- Where tokens were separate, the expanded tokens are in order. -/
theorem expand_sequence (hkey : ∀ k, P (.keyword k)) (lo hi : Int) (d : Datum)
    (h : Between P lo hi d.flatten)
    (hord : d.flatten.Pairwise fun t u => t.span.stop ≤ u.span.start) :
    ∃ e, expand sequence d = .ok (e, []) ∧ Spread P lo hi e ∧ e.name? = d.name? := by
  cases d with
  | leaf l s =>
      exact ⟨.leaf l s, rfl, ⟨h, List.pairwise_singleton .., List.pairwise_singleton ..,
        Datum.isPlain_leaf l s⟩, rfl⟩
  | broken ts s =>
      exact ⟨.broken ts s, rfl, ⟨h, .of_pairwise hord, .of_pairwise hord,
        Datum.isPlain_broken ts s⟩, rfl⟩
  | list ds s =>
      obtain ⟨hlo, hhi, hwide, hinside, hdsord⟩ := between_of_list h hord
      have hne : s.start < s.stop := by omega
      have hds : Between P s.start s.stop (Datum.flattenAll ds) :=
        hinside.mono (by omega) (by omega)
      cases ds with
      | nil =>
          have hplain : (Datum.list [] s).isHeadedBy beginName = false := rfl
          refine ⟨.list [] s, ?_, .list hkey hlo hhi hne .nil hplain, rfl⟩
          rw [expand_list_eq rfl, expandBegin_of_not_headed hplain]
          rfl
      | cons head body =>
          by_cases hname : head.name? = some beginName
          · -- A sequence: its name is a leaf, and what follows lies behind it.
            cases head with
            | leaf l hs =>
                rw [Datum.flattenAll, Datum.flatten, List.singleton_append] at hds hdsord
                have hhead : s.start ≤ hs.start ∧ hs.start < hs.stop ∧ hs.stop ≤ s.stop :=
                  hds.bounds ⟨l, hs⟩ (by simp)
                have hbody : Between P hs.stop s.stop (Datum.flattenAll body) := by
                  refine ⟨?_, fun t ht => hds.holds t (by simp [ht])⟩
                  intro t ht
                  have hbehind := (List.pairwise_cons.1 hdsord).1 t ht
                  have := hds.bounds t (by simp [ht])
                  exact ⟨hbehind, this.2⟩
                obtain ⟨es, hes, hspread⟩ := expandAll_sequence hkey hs.stop s.stop hhead.2.2 body
                  hbody (List.pairwise_cons.1 hdsord).2
                have hspan : hs.start ≤ s.stop := by
                  have := hhead.2
                  omega
                refine ⟨_, ?_, .call hkey hlo hhi hhead.1 hhead.2.1 hhead.2.2 hspread hspan, rfl⟩
                rw [expand_list_eq (expandAll_cons_eq rfl hes), expandBegin_of_headed hname hspan]
                rfl
            | list ds' s' => cases hname
            | broken ts s' => cases hname
          · -- Any other list: its head does not become the name of a sequence.
            obtain ⟨m, hlom, hmhi, hheadb, hbodyb⟩ := exists_offset (Int.le_of_lt hne) hds hdsord
            obtain ⟨hheadord, hbodyord, -⟩ := List.pairwise_append.1 hdsord
            obtain ⟨e, he, hspread, hsame⟩ := expand_sequence hkey s.start m head hheadb hheadord
            obtain ⟨es, hes, hspreads⟩ := expandAll_sequence hkey m s.stop hmhi body hbodyb hbodyord
            have hplain : (Datum.list (e :: es) s).isHeadedBy beginName = false := by
              rw [Datum.isHeadedBy, hsame]
              simpa using hname
            refine ⟨.list (e :: es) s, ?_,
              .list hkey hlo hhi hne (.cons hspread hspreads hlom hmhi) hplain, rfl⟩
            rw [expand_list_eq (expandAll_cons_eq he hes), expandBegin_of_not_headed hplain]
            rfl

/-- The same of a list of data. -/
theorem expandAll_sequence (hkey : ∀ k, P (.keyword k)) (lo hi : Int) (hle : lo ≤ hi)
    (ds : List Datum) (h : Between P lo hi (Datum.flattenAll ds))
    (hord : (Datum.flattenAll ds).Pairwise fun t u => t.span.stop ≤ u.span.start) :
    ∃ es, expandAll sequence ds = .ok (es, []) ∧ SpreadAll P lo hi es := by
  cases ds with
  | nil => exact ⟨[], rfl, .nil⟩
  | cons d ds =>
      obtain ⟨m, hlom, hmhi, hd, hds⟩ := exists_offset hle h hord
      obtain ⟨hdord, hdsord, -⟩ := List.pairwise_append.1 hord
      obtain ⟨e, he, hspread, -⟩ := expand_sequence hkey lo m d hd hdord
      obtain ⟨es, hes, hspreads⟩ := expandAll_sequence hkey m hi hmhi ds hds hdsord
      exact ⟨e :: es, expandAll_cons_eq he hes, .cons hspread hspreads hlom hmhi⟩

end

/-! ## Expanding again -/

mutual

/-- Where no list is headed by `begin`, nothing changes. -/
theorem expand_of_isPlain (d : Datum) (h : d.IsPlain) : expand sequence d = .ok (d, []) := by
  cases d with
  | leaf l s => rfl
  | broken ts s => rfl
  | list ds s =>
      obtain ⟨hhead, hds⟩ := Datum.isPlain_list.1 h
      rw [expand_list_eq (expandAll_of_arePlain ds hds), expandBegin_of_not_headed hhead]
      rfl

theorem expandAll_of_arePlain (ds : List Datum) (h : Datum.ArePlain ds) :
    expandAll sequence ds = .ok (ds, []) := by
  cases ds with
  | nil => rfl
  | cons d ds =>
      obtain ⟨hd, hds⟩ := Datum.arePlain_cons.1 h
      exact expandAll_cons_eq (expand_of_isPlain d hd) (expandAll_of_arePlain ds hds)

end

/-- Any number of further rounds of the rule change nothing. -/
theorem runAll_of_arePlain {rules : List Transformer} (hrules : ∀ r ∈ rules, r = sequence)
    {ds : List Datum} (h : Datum.ArePlain ds) : (runAll rules ds).2 = .ok (ds, []) := by
  induction rules with
  | nil => rfl
  | cons rule rules ih =>
      obtain rfl := hrules rule (by simp)
      rw [runAll, expandAll_of_arePlain ds h]
      dsimp only
      rw [ih fun r hr => hrules r (by simp [hr])]
      rfl

/-- Behind a round of the rule that leaves no sequence, further rounds change nothing. -/
theorem runAll_of_expandAll {rules : List Transformer} (hrules : ∀ r ∈ rules, r = sequence)
    {ds es : List Datum} (hes : expandAll sequence ds = .ok (es, [])) (h : Datum.ArePlain es) :
    (runAll (sequence :: rules) ds).2 = .ok (es, []) := by
  rw [runAll, hes]
  dsimp only
  rw [runAll_of_arePlain hrules h]
  rfl

/-- Any number of rounds of the rule leave the tokens in order, within their brackets and between
the same offsets. -/
theorem runAll_sequence {rules : List Transformer} (hrules : ∀ r ∈ rules, r = sequence)
    (hkey : ∀ k, P (.keyword k)) (hle : lo ≤ hi) {ds : List Datum}
    (h : Between P lo hi (Datum.flattenAll ds))
    (hord : (Datum.flattenAll ds).Pairwise fun t u => t.span.stop ≤ u.span.start) :
    ∃ es, (runAll rules ds).2 = .ok (es, []) ∧ Ascending (Datum.flattenAll es) ∧
      Enclosing (Datum.flattenAll es) ∧ Between P lo hi (Datum.flattenAll es) := by
  cases rules with
  | nil =>
      exact ⟨ds, rfl, .of_pairwise hord, .of_pairwise hord, h⟩
  | cons rule rules =>
      obtain rfl := hrules rule (by simp)
      obtain ⟨es, hes, hspread⟩ := expandAll_sequence hkey lo hi hle ds h hord
      have hmore : ∀ r ∈ rules, r = sequence := fun r hr => hrules r (by simp [hr])
      exact ⟨es, runAll_of_expandAll hmore hes hspread.plain, hspread.ascending,
        hspread.enclosing, hspread.between⟩

end Transformer

end SchemeFront
