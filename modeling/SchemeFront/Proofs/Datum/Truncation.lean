import SchemeFront.Proofs.Datum.Rereading
import SchemeFront.Proofs.Datum.RoundTrip

set_option autoImplicit false

/-! # Data under a lower limit

A limit only cuts the data off (`Datum.truncate`): the lists that have as many lists around them as
are allowed are kept as their tokens, and nothing else changes. For data that were read without
reaching a limit can be flattened and read again under any other, and reading takes the same tokens
of each form whether it is refused or not. So the data under any limit are those under one that is
as high as there are tokens, cut off (`Datum.ofTokens_truncates`).
-/

namespace SchemeFront

open Token

namespace Datum

variable {ts : List Token} {endOfInput : Span}

mutual

/-- The datum with `levels` levels of lists; a list below them becomes a malformed region with its
tokens. -/
def truncate : (levels : Nat) → Datum → Datum
  | _, leaf l s => leaf l s
  | 0, list ds s => broken (flatten (list ds s)) s
  | levels + 1, list ds s => list (truncateAll levels ds) s
  | _, broken ts s => broken ts s

/-- The elements of a list, each with `levels` levels of lists. -/
def truncateAll : (levels : Nat) → List Datum → List Datum
  | _, [] => []
  | levels, d :: ds => truncate levels d :: truncateAll levels ds

end

mutual

/-- No list has more lists around it than there are tokens. -/
theorem truncate_of_length_le (levels : Nat) (d : Datum) (h : d.flatten.length ≤ levels) :
    truncate levels d = d := by
  cases d with
  | leaf l s => cases levels <;> rfl
  | broken ts s => cases levels <;> rfl
  | list ds s =>
      have hlength : (flatten (list ds s)).length = (flattenAll ds).length + 2 := by
        simp [flatten]
      cases levels with
      | zero => omega
      | succ levels => rw [truncate, truncateAll_of_length_le levels ds (by omega)]

theorem truncateAll_of_length_le (levels : Nat) (ds : List Datum)
    (h : (flattenAll ds).length ≤ levels) : truncateAll levels ds = ds := by
  cases ds with
  | nil => rfl
  | cons d ds =>
      rw [flattenAll, List.length_append] at h
      rw [truncateAll, truncate_of_length_le levels d (by omega),
        truncateAll_of_length_le levels ds (by omega)]

end

mutual

/-- Reading again within `levels` more levels cuts off what is below them. -/
theorem reread_eq_truncate (levels depth : Nat) (d : Datum) (h : ∀ e ∈ d.subdata, e.IsWide) :
    d.reread (depth + levels : Nat) depth = d.truncate levels := by
  cases d with
  | leaf l s => cases levels <;> rfl
  | broken ts s => cases levels <;> rfl
  | list ds s =>
      have hs : s.start < s.stop := h _ List.mem_cons_self
      cases levels with
      | zero => rw [reread, if_pos (by omega), truncate]
      | succ levels =>
          have hbelow : ¬ ((depth + (levels + 1) : Nat) : Int) ≤ depth := by omega
          have hsum : depth + (levels + 1) = depth + 1 + levels := by omega
          rw [reread, if_neg hbelow, Span.join_first_final hs, truncate, hsum,
            rereadAll_eq_truncateAll levels (depth + 1) ds
              fun e he => h e (List.mem_cons_of_mem _ he)]

theorem rereadAll_eq_truncateAll (levels depth : Nat) (ds : List Datum)
    (h : ∀ e ∈ subdataAll ds, e.IsWide) :
    rereadAll (depth + levels : Nat) depth ds = truncateAll levels ds := by
  cases ds with
  | nil => cases levels <;> rfl
  | cons d ds =>
      rw [rereadAll, truncateAll,
        reread_eq_truncate levels depth d fun e he => h e (List.mem_append_left _ he),
        rereadAll_eq_truncateAll levels depth ds fun e he => h e (List.mem_append_right _ he)]

end

/-- Under a lower limit, the data are those under the higher one, cut off. -/
theorem readAll_of_le {lower higher : Nat} {r : Reading (List Datum)} (hle : lower ≤ higher)
    (hasc : Ascending ts) (hflat : flattenAll r.value = ts)
    (hr : readAll higher endOfInput ts = .ok r) :
    ∃ r', readAll lower endOfInput ts = .ok r' ∧ r'.value = truncateAll lower r.value := by
  have hlegible : Legible lower endOfInput r.value :=
    (legible_of_readAll hasc hr).mono (Int.ofNat_le.2 hle)
  have hwide : ∀ e ∈ subdataAll r.value, e.IsWide :=
    areWide_of_ascending r.value (hflat.symm ▸ hasc)
  obtain ⟨notes, hread⟩ := readAll_flattenAll hlegible
  rw [hflat] at hread
  refine ⟨_, hread, ?_⟩
  simpa using rereadAll_eq_truncateAll lower 0 r.value hwide

/-- **A limit only cuts the data off.** Read within a limit as high as there are tokens, the tokens
of a source are those of the data, and within any limit the data are the same but for the lists that
have as many lists around them as the limit says, each of which is kept as its tokens. -/
theorem ofTokens_truncates {src : Source} {l : Lexed} (limit : Nat)
    (h : Lexed.ofSource src = .ok l) :
    ∃ data unlimited? limited?,
      ofTokens l.tokens.length src l.tokens = .ok (data, unlimited?) ∧
      flattenAll data = l.tokens ∧
      ofTokens limit src l.tokens = .ok (truncateAll limit data, limited?) := by
  have hasc : Ascending l.tokens := (Lexed.separate h).ascending
  obtain ⟨r, hr, hflat⟩ := exists_readAll l.tokens.length h
  obtain ⟨r', hr', hvalue⟩ : ∃ r', readAll limit src.endOfInput l.tokens = .ok r' ∧
      r'.value = truncateAll limit r.value := by
    rcases Nat.le_total limit l.tokens.length with hle | hle
    · exact readAll_of_le hle hasc hflat hr
    · -- A higher limit is not reached, so both times the same data are read.
      obtain ⟨r', hr', hflat'⟩ := exists_readAll limit h
      obtain ⟨r'', hr'', hvalue⟩ := readAll_of_le hle hasc hflat' hr'
      cases hr.symm.trans hr''
      refine ⟨r', hr', ?_⟩
      calc r'.value = truncateAll l.tokens.length r'.value :=
            (truncateAll_of_length_le _ _ (Nat.le_of_eq (congrArg _ hflat'))).symm
        _ = r.value := hvalue.symm
        _ = truncateAll limit r.value :=
            (truncateAll_of_length_le _ _ (hflat.symm ▸ hle)).symm
  refine ⟨r.value, Report.of? .syntactic r.notes src, Report.of? .syntactic r'.notes src, ?_, hflat,
    ?_⟩
  · rw [ofTokens, hr]
    rfl
  · rw [ofTokens, hr', ← hvalue]
    rfl

/-- Within one level: a list in a list, a bracket that closes nothing, and a list that is never
closed, which would be too deep as well. -/
theorem ofTokens_truncates_brackets :
    ∃ l, Lexed.ofSource ⟨"a.scm", "(a (b (c)) d) ) ((x".toList⟩ = .ok l ∧
      ∃ data unlimited? limited?,
        ofTokens l.tokens.length ⟨"a.scm", "(a (b (c)) d) ) ((x".toList⟩ l.tokens
          = .ok (data, unlimited?) ∧
        flattenAll data = l.tokens ∧
        ofTokens (1 : Nat) ⟨"a.scm", "(a (b (c)) d) ) ((x".toList⟩ l.tokens
          = .ok (truncateAll 1 data, limited?) :=
  ⟨_, rfl, ofTokens_truncates 1 rfl⟩

end Datum

end SchemeFront
