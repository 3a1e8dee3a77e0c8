import SchemeFront.Text.CharClass

set_option autoImplicit false

/-! # Texts in parts

When a text is made up by the texts of some parts, each of its characters is in exactly one of
them (`StandsIn.exists_of_lt`, `StandsIn.unique`). Two ways of saying where a character is are
compared with this: a longest run of identifier characters is determined by any place in it
(`IsRun.unique`), and a place is in a comment if a semicolon stands before it on its line
(`StandsIn.isBehindSemicolon_iff`).
-/

namespace SchemeFront.Text

/-! ## Runs of identifier characters -/

/-- The text begins with an identifier character. -/
def startsInWord (cs : List Char) : Bool := cs.head?.any isIdentifier

/-- The text ends with an identifier character. -/
def endsInWord (cs : List Char) : Bool := cs.getLast?.any isIdentifier

/-- Between `before` and `behind`, `run` is a longest run of identifier characters. -/
structure IsRun (before run behind : List Char) : Prop where
  nonempty : run ≠ []
  identifiers : ∀ c ∈ run, isIdentifier c = true
  first : endsInWord before = false
  last : startsInWord behind = false

@[simp] theorem startsInWord_nil : startsInWord [] = false := rfl

@[simp] theorem startsInWord_cons (c : Char) (cs : List Char) :
    startsInWord (c :: cs) = isIdentifier c := rfl

@[simp] theorem endsInWord_nil : endsInWord [] = false := rfl

@[simp] theorem endsInWord_append_singleton (cs : List Char) (c : Char) :
    endsInWord (cs ++ [c]) = isIdentifier c := by
  simp [endsInWord]

theorem isIdentifier_of_isDigit {c : Char} (h : c.isDigit = true) : isIdentifier c = true := by
  simp [isIdentifier, Char.isAlphanum, h]

/-- A text that ends with identifier characters ends in a word. -/
theorem endsInWord_append (cs : List Char) {ds : List Char} (hne : ds ≠ [])
    (h : ∀ c ∈ ds, isIdentifier c = true) : endsInWord (cs ++ ds) = true := by
  rw [endsInWord, List.getLast?_append, List.getLast?_eq_some_getLast hne]
  exact h _ (List.getLast_mem hne)

/-- What is behind a longest run is determined with the run. -/
theorem eq_of_append_eq {run behind run' behind' : List Char}
    (hrun : ∀ c ∈ run, isIdentifier c = true) (hrun' : ∀ c ∈ run', isIdentifier c = true)
    (hlast : startsInWord behind = false) (hlast' : startsInWord behind' = false)
    (h : run ++ behind = run' ++ behind') : run = run' ∧ behind = behind' := by
  have cut : ∀ {cs ds : List Char}, (∀ c ∈ cs, isIdentifier c = true) →
      startsInWord ds = false → (cs ++ ds).takeWhile isIdentifier = cs := by
    intro cs ds hcs hds
    rw [List.takeWhile_append_of_pos hcs]
    cases ds with
    | nil => simp
    | cons d ds =>
        rw [startsInWord_cons] at hds
        simp [hds]
  have heq : run = run' := by
    calc run = (run ++ behind).takeWhile isIdentifier := (cut hrun hlast).symm
      _ = (run' ++ behind').takeWhile isIdentifier := by rw [h]
      _ = run' := cut hrun' hlast'
  subst heq
  exact ⟨rfl, List.append_cancel_left h⟩

/-- A longest run that begins in another one is that one. -/
theorem IsRun.unique {before run behind before' run' behind' : List Char}
    (h : IsRun before run behind) (h' : IsRun before' run' behind')
    (htext : before ++ run ++ behind = before' ++ run' ++ behind')
    (hle : before'.length ≤ before.length) (hlt : before.length < before'.length + run'.length) :
    before = before' ∧ run = run' ∧ behind = behind' := by
  have hbefore : before <+: before ++ run ++ behind := ⟨run ++ behind, by simp⟩
  have hbefore' : before' <+: before ++ run ++ behind := ⟨run' ++ behind', by simp [htext]⟩
  obtain ⟨between, rfl⟩ := List.prefix_of_prefix_length_le hbefore' hbefore hle
  simp only [List.append_assoc] at htext
  have hrest := List.append_cancel_left htext
  rw [List.length_append] at hlt
  -- What lies between the two beginnings belongs to `run'`, so that `run` would not be longest.
  have hpre : between <+: run' :=
    List.prefix_of_prefix_length_le ⟨run ++ behind, hrest⟩ (List.prefix_append run' behind')
      (by omega)
  have hnil : between = [] := by
    by_cases hne : between = []
    · exact hne
    · have hword := endsInWord_append before' hne
        fun c hc => h'.identifiers c (hpre.subset hc)
      rw [h.first] at hword
      cases hword
  subst hnil
  obtain ⟨rfl, rfl⟩ := eq_of_append_eq h.identifiers h'.identifiers h.last h'.last hrest
  exact ⟨List.append_nil _, rfl, rfl⟩

/-! ## Places in parts -/

/-- A semicolon stands at the offset `i`, or before it on its line. -/
def IsBehindSemicolon (cs : List Char) (i : Nat) : Prop :=
  ∃ j, j ≤ i ∧ cs[j]? = some ';' ∧ ∀ k, j ≤ k → k ≤ i → cs[k]? ≠ some '\n'

/-- In the text that is made up by the parts `xs`, the part `x` stands between `before` and
`behind`. -/
def StandsIn {α : Type} (text : α → List Char) (xs : List α) (before : List Char) (x : α)
    (behind : List Char) : Prop :=
  ∃ ys zs, xs = ys ++ x :: zs ∧ before = ys.flatMap text ∧ behind = zs.flatMap text

namespace StandsIn

variable {α : Type} {text : α → List Char} {xs : List α} {x x' : α}
  {before before' behind behind' : List Char} {i : Nat}

theorem mem (h : StandsIn text xs before x behind) : x ∈ xs := by
  obtain ⟨ys, zs, rfl, -, -⟩ := h
  simp

theorem flatMap_eq (h : StandsIn text xs before x behind) :
    xs.flatMap text = before ++ text x ++ behind := by
  obtain ⟨ys, zs, rfl, rfl, rfl⟩ := h
  simp

/-- A part of a list is its first or one of the others. -/
theorem cons_iff {y : α} : StandsIn text (y :: xs) before x behind ↔
    (before = [] ∧ x = y ∧ behind = xs.flatMap text) ∨
      ∃ before', before = text y ++ before' ∧ StandsIn text xs before' x behind := by
  constructor
  · rintro ⟨ys, zs, hxs, rfl, rfl⟩
    cases ys with
    | nil =>
        cases hxs
        exact .inl ⟨rfl, rfl, rfl⟩
    | cons y' ys =>
        cases hxs
        exact .inr ⟨_, rfl, ys, zs, rfl, rfl, rfl⟩
  · rintro (⟨rfl, rfl, rfl⟩ | ⟨before', rfl, ys, zs, rfl, rfl, rfl⟩)
    · exact ⟨[], xs, rfl, rfl, rfl⟩
    · exact ⟨y :: ys, zs, rfl, rfl, rfl⟩

/-- Every character is in a part. -/
theorem exists_of_lt (h : i < (xs.flatMap text).length) : ∃ before x behind,
    StandsIn text xs before x behind ∧ before.length ≤ i ∧
      i < before.length + (text x).length := by
  induction xs generalizing i with
  | nil => simp at h
  | cons y xs ih =>
      rw [List.flatMap_cons, List.length_append] at h
      by_cases hy : i < (text y).length
      · exact ⟨[], y, _, cons_iff.2 (.inl ⟨rfl, rfl, rfl⟩), Nat.zero_le i, by simpa using hy⟩
      · obtain ⟨before, x, behind, hx, hle, hlt⟩ := ih (i := i - (text y).length) (by omega)
        refine ⟨text y ++ before, x, behind, cons_iff.2 (.inr ⟨before, rfl, hx⟩), ?_, ?_⟩
        · rw [List.length_append]
          omega
        · rw [List.length_append]
          omega

/-- No character is in two parts. -/
theorem unique (h : StandsIn text xs before x behind) (h' : StandsIn text xs before' x' behind')
    (hle : before.length ≤ i) (hlt : i < before.length + (text x).length)
    (hle' : before'.length ≤ i) (hlt' : i < before'.length + (text x').length) :
    before = before' ∧ x = x' ∧ behind = behind' := by
  induction xs generalizing before before' i with
  | nil => cases h.mem
  | cons y xs ih =>
      -- Both are the first part or both are not, as the first part ends before the others.
      rcases cons_iff.1 h with ⟨rfl, rfl, rfl⟩ | ⟨before, rfl, hx⟩
      · rcases cons_iff.1 h' with ⟨rfl, rfl, rfl⟩ | ⟨before', rfl, -⟩
        · exact ⟨rfl, rfl, rfl⟩
        · simp only [List.length_append, List.length_nil] at hle' hlt
          omega
      · rcases cons_iff.1 h' with ⟨rfl, rfl, rfl⟩ | ⟨before', rfl, hx'⟩
        · simp only [List.length_append, List.length_nil] at hle hlt'
          omega
        · simp only [List.length_append] at hle hlt hle' hlt'
          obtain ⟨rfl, rfl, rfl⟩ := ih hx hx' (i := i - (text y).length) (by omega) (by omega)
            (by omega) (by omega)
          exact ⟨rfl, rfl, rfl⟩

/-- The character at an offset is the one that its part has there. -/
theorem getElem? (h : StandsIn text xs before x behind) (hle : before.length ≤ i)
    (hlt : i < before.length + (text x).length) :
    (xs.flatMap text)[i]? = (text x)[i - before.length]? := by
  rw [h.flatMap_eq, List.append_assoc, List.getElem?_append_right hle,
    List.getElem?_append_left (by omega)]

/-- The character behind a part. -/
theorem getElem?_behind (h : StandsIn text xs before x behind) :
    (xs.flatMap text)[before.length + (text x).length]? = behind.head? := by
  rw [h.flatMap_eq, List.getElem?_append_right (by simp), List.head?_eq_getElem?]
  simp

/-- If the semicolons of a text are in comments, and these end where their lines do, the places
in comments are those that have a semicolon before them on their line. -/
theorem isBehindSemicolon_iff {isComment : α → Bool}
    (hcomment : ∀ {before x behind}, StandsIn text xs before x behind → isComment x = true →
      (∃ body, text x = ';' :: body ∧ '\n' ∉ body) ∧ ∀ c ∈ behind.head?, c = '\n')
    (hother : ∀ y ∈ xs, isComment y = false → ';' ∉ text y)
    (h : StandsIn text xs before x behind) (hle : before.length ≤ i)
    (hlt : i < before.length + (text x).length) :
    IsBehindSemicolon (xs.flatMap text) i ↔ isComment x = true := by
  have hi : i < (xs.flatMap text).length := by
    rw [h.flatMap_eq]
    simp only [List.length_append]
    omega
  constructor
  · rintro ⟨j, hj, hsemi, hline⟩
    obtain ⟨before', y, behind', hy, hle', hlt'⟩ := exists_of_lt (i := j) (Nat.lt_of_le_of_lt hj hi)
    have hmem : ';' ∈ text y := by
      rw [hy.getElem? hle' hlt'] at hsemi
      exact List.mem_of_getElem? hsemi
    have hyc : isComment y = true := by
      by_cases hyc : isComment y = true
      · exact hyc
      · exact absurd hmem (hother y hy.mem (by simpa using hyc))
    -- The comment with the semicolon goes on up to `i`, as its line does.
    by_cases hend : i < before'.length + (text y).length
    · obtain ⟨-, rfl, -⟩ := h.unique hy hle hlt (by omega) hend
      exact hyc
    · have hbehind := hy.getElem?_behind
      cases behind' with
      | nil =>
          rw [hy.flatMap_eq] at hi
          simp only [List.append_nil, List.length_append] at hi
          omega
      | cons c cs =>
          have hc : c = '\n' := (hcomment hy hyc).2 c rfl
          exact absurd (by rw [hbehind, hc]; rfl) (hline _ (by omega) (Nat.not_lt.1 hend))
  · intro hx
    obtain ⟨⟨body, hbody, hline⟩, -⟩ := hcomment h hx
    refine ⟨before.length, hle, ?_, ?_⟩
    · rw [h.getElem? (Nat.le_refl _) (by omega), hbody]
      simp
    · intro k hk hki hnl
      rw [h.getElem? hk (by omega), hbody] at hnl
      rcases List.mem_cons.1 (List.mem_of_getElem? hnl) with heq | hmem
      · exact absurd heq (by decide)
      · exact hline hmem

end StandsIn

end SchemeFront.Text
