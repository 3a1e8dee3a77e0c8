import Mathlib.Tactic.SplitIfs
import SchemeFront.Text.Quoted

set_option autoImplicit false

/-! # Quoted texts fit on a line

What `Text.quoted` writes is made of printable characters only (`Text.isPrintable_of_mem_quoted`):
those that are not are escaped by a letter and digits to the base sixteen. So no character that ends
a line is in it. The visible characters of ASCII and the blank are printable.
-/

namespace SchemeFront.Text

/-- The blank and the visible characters of ASCII are printable. -/
theorem isPrintable_of_ascii {c : Char} (hlow : 0x20 ≤ c.toNat) (hhigh : c.toNat ≤ 0x7E) :
    isPrintable c = true := by
  have houtside : unprintableRanges.all (fun r => decide (r.2 < 0x20 ∨ 0x7E < r.1)) = true := by
    decide +kernel
  rw [isPrintable, Bool.not_eq_true', inRanges, List.any_eq_false]
  intro r hr
  have hr := of_decide_eq_true (List.all_eq_true.1 houtside r hr)
  simp only [Bool.and_eq_true, decide_eq_true_eq, not_and]
  omega

theorem isPrintable_of_mem_ascii {cs : List Char} {c : Char} (hc : c ∈ cs)
    (h : cs.all (fun c => decide (0x20 ≤ c.toNat) && decide (c.toNat ≤ 0x7E)) = true) :
    isPrintable c = true := by
  have hbounds := List.all_eq_true.1 h c hc
  rw [Bool.and_eq_true, decide_eq_true_eq, decide_eq_true_eq] at hbounds
  exact isPrintable_of_ascii hbounds.1 hbounds.2

theorem not_isPrintable_newline : isPrintable '\n' = false := by
  decide +kernel

theorem isPrintable_digitChar {n : Nat} (h : n < 16) : isPrintable n.digitChar = true := by
  have hall : ∀ i : Fin 16, 0x20 ≤ (Nat.digitChar i).toNat ∧ (Nat.digitChar i).toNat ≤ 0x7E := by
    decide
  exact isPrintable_of_ascii (hall ⟨n, h⟩).1 (hall ⟨n, h⟩).2

theorem isPrintable_of_mem_toDigits {n : Nat} {c : Char} (h : c ∈ Nat.toDigits 16 n) :
    isPrintable c = true := by
  rw [Nat.toDigits_eq_if (by decide)] at h
  split at h
  · rename_i hlt
    rw [List.mem_singleton.1 h]
    exact isPrintable_digitChar hlt
  · rcases List.mem_append.1 h with h | h
    · exact isPrintable_of_mem_toDigits h
    · rw [List.mem_singleton.1 h]
      exact isPrintable_digitChar (Nat.mod_lt n (by decide))
termination_by n

/-- Digits to the base sixteen are printable. -/
theorem isPrintable_of_mem_hex {width n : Nat} {c : Char} (h : c ∈ hex width n) :
    isPrintable c = true := by
  rw [hex, List.leftpad, List.mem_append] at h
  rcases h with h | h
  · rw [List.eq_of_mem_replicate h]
    exact isPrintable_of_ascii (by decide) (by decide)
  · exact isPrintable_of_mem_toDigits h

/-- What follows the backslash of an escape decides. -/
theorem isPrintable_of_mem_escape {c d : Char} {more : List Char} (h : d ∈ '\\' :: c :: more)
    (hc : isPrintable c = true) (hmore : ∀ e ∈ more, isPrintable e = true) :
    isPrintable d = true := by
  simp only [List.mem_cons] at h
  rcases h with rfl | rfl | h
  · exact isPrintable_of_ascii (by decide) (by decide)
  · exact hc
  · exact hmore d h

/-- Whatever a character is, it is written with printable ones. -/
theorem isPrintable_of_mem_escaped {quote c d : Char} (hquote : isPrintable quote = true)
    (h : d ∈ escaped quote c) : isPrintable d = true := by
  have hletter : ∀ l ∈ ['\\', 't', 'n', 'r', 'x', 'u', 'U'], isPrintable l = true :=
    fun l hl => isPrintable_of_mem_ascii hl (by decide)
  unfold escaped at h
  split_ifs at h with hc _ _ _ hprint
  · refine isPrintable_of_mem_escape h ?_ (by simp)
    rcases hc with rfl | rfl
    · exact hquote
    · exact hletter _ (by simp)
  · exact isPrintable_of_mem_escape h (hletter _ (by simp)) (by simp)
  · exact isPrintable_of_mem_escape h (hletter _ (by simp)) (by simp)
  · exact isPrintable_of_mem_escape h (hletter _ (by simp)) (by simp)
  · rwa [List.mem_singleton.1 h]
  · exact isPrintable_of_mem_escape h (hletter _ (by simp)) fun _ => isPrintable_of_mem_hex
  · exact isPrintable_of_mem_escape h (hletter _ (by simp)) fun _ => isPrintable_of_mem_hex
  · exact isPrintable_of_mem_escape h (hletter _ (by simp)) fun _ => isPrintable_of_mem_hex

/-- What is quoted fits on a line. -/
theorem isPrintable_of_mem_quoted {text : List Char} {c : Char} (h : c ∈ quoted text) :
    isPrintable c = true := by
  have hquote : isPrintable (quoteFor text) = true := by
    unfold quoteFor
    split <;> exact isPrintable_of_ascii (by decide) (by decide)
  simp only [quoted, List.cons_append, List.mem_cons, List.mem_append, List.mem_flatMap,
    List.not_mem_nil, or_false] at h
  rcases h with rfl | ⟨d, -, h⟩ | rfl
  · exact hquote
  · exact isPrintable_of_mem_escaped hquote h
  · exact hquote

end SchemeFront.Text
