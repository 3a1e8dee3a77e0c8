import SchemeFront.Proofs.Parse.Findings
import SchemeFront.Proofs.Transformer.Rewriting

set_option autoImplicit false

/-! # Written tokens in expanded ones

Most expanded tokens are those of the source. The others come in two places: behind the bracket
where a sequence begins, and at the bracket that closes it, which stands there twice
(`Token.Woven`). So a parser that is not just behind the first bracket of a sequence has only
written tokens next (`Token.WovenFrom`). There a procedure without parameters begins
(`Token.HeadedFrom`), which a parser reads as a whole, unless the sequence was written where a list
of parameters or the header of a definition should stand (`Token.exists_of_headedFrom`).
-/

namespace SchemeFront

open Transformer

namespace Token

variable {t o p k : Token} {ts ts' us us' vs xs : List Token}

/-! ## Weaving -/

/-- Expanded tokens, with the written ones that they were expanded from. -/
inductive Woven : List Token → List Token → Prop
  | nil : Woven [] []
  | keep (t : Token) {ts us : List Token} (more : Woven ts us) : Woven (t :: ts) (t :: us)
  | head {o b : Token} {ts us : List Token} (ho : o.opens = true)
      (hb : b.name? = some beginName) (more : Woven ts us) :
      Woven (o :: b :: ts) (o :: (Mark.head.replace b ++ us))
  | close {c : Token} {ts us : List Token} (hc : c.closes = true) (more : Woven ts us) :
      Woven (c :: ts) (c :: c :: us)

theorem woven_refl (ts : List Token) : Woven ts ts := by
  induction ts with
  | nil => exact .nil
  | cons t ts ih => exact .keep t ih

theorem Woven.append (h : Woven ts us) (h' : Woven ts' us') :
    Woven (ts ++ ts') (us ++ us') := by
  induction h with
  | nil => exact h'
  | keep t more ih => exact .keep t ih
  | head ho hb more ih =>
      rw [List.cons_append, List.cons_append, List.cons_append, List.append_assoc]
      exact .head ho hb ih
  | close hc more ih => exact .close hc ih

end Token

namespace Transformer

open Token

mutual

/-- Carrying out marks weaves new tokens into the written ones. -/
theorem woven_rewrite (d : Datum) : Woven d.flatten (rewrite (marks d) d.flatten) := by
  cases d with
  | leaf l s => exact woven_refl _
  | broken ts s =>
      rw [marks, Datum.flatten, rewrite_keep]
      exact woven_refl ts
  | list ds s =>
      cases hhead : (Datum.list ds s).isHeadedBy beginName with
      | false =>
          rw [rewrite_list hhead, Datum.flatten]
          exact .keep _ ((woven_rewriteAll ds).append (woven_refl _))
      | true =>
          obtain ⟨l, hs, body, s', heq, hl⟩ := exists_leaf_of_isHeadedBy hhead
          cases heq
          have hlast : Woven [⟨.keyword .closing, s.final⟩]
              (Mark.close.replace ⟨.keyword .closing, s.final⟩) := .close rfl .nil
          rw [rewrite_sequence body hl]
          simp only [Datum.flatten, Datum.flattenAll, List.cons_append, List.nil_append]
          exact .head rfl hl ((woven_rewriteAll body).append hlast)

theorem woven_rewriteAll (ds : List Datum) :
    Woven (Datum.flattenAll ds) (rewrite (marksAll ds) (Datum.flattenAll ds)) := by
  cases ds with
  | nil => exact .nil
  | cons d ds =>
      rw [marksAll, Datum.flattenAll, rewrite_append (length_marks d)]
      exact (woven_rewrite d).append (woven_rewriteAll ds)

end

end Transformer

namespace Token

variable {t o p k : Token} {ts us vs xs : List Token}

/-! ## Places in expanded tokens -/

/-- What is left of expanded tokens begins with what was written. -/
def WovenFrom (ts us : List Token) : Prop := ∃ behind, behind <:+ ts ∧ Woven behind us

/-- What is left of expanded tokens begins in the place of the name of a sequence. -/
def HeadedFrom (ts us : List Token) : Prop :=
  ∃ b more, b ∈ ts ∧ b.name? = some beginName ∧ WovenFrom ts more ∧
    us = Mark.head.replace b ++ more

theorem WovenFrom.mono (h : WovenFrom ts us) (hs : ts <:+ vs) : WovenFrom vs us := by
  obtain ⟨behind, hbehind, hw⟩ := h
  exact ⟨behind, hbehind.trans hs, hw⟩

theorem Woven.wovenFrom (h : Woven ts us) : WovenFrom ts us := ⟨ts, List.suffix_refl ts, h⟩

theorem wovenFrom_nil (ts : List Token) : WovenFrom ts [] := ⟨[], List.nil_suffix, .nil⟩

/-- What comes next was written. -/
theorem WovenFrom.mem (h : WovenFrom ts (t :: us)) : t ∈ ts := by
  obtain ⟨behind, hbehind, hw⟩ := h
  refine hbehind.mem ?_
  cases hw <;> exact List.mem_cons_self

/-- A token that opens nothing leads to what was written. -/
theorem WovenFrom.plain (h : WovenFrom ts (t :: us)) (ht : t.opens = false) :
    WovenFrom ts us := by
  obtain ⟨behind, hbehind, hw⟩ := h
  cases hw with
  | keep t more => exact more.wovenFrom.mono ((List.suffix_cons _ _).trans hbehind)
  | head ho hb more =>
      rw [ht] at ho
      cases ho
  | close hc more => exact ((Woven.keep t more).wovenFrom).mono hbehind

/-- Behind an opening bracket a sequence may begin. -/
theorem WovenFrom.inside (h : WovenFrom ts (t :: us)) (ht : t.opens = true) :
    WovenFrom ts us ∨ HeadedFrom ts us := by
  obtain ⟨behind, hbehind, hw⟩ := h
  cases hw with
  | keep t more => exact .inl (more.wovenFrom.mono ((List.suffix_cons _ _).trans hbehind))
  | @head o b behind us ho hb more =>
      have hs : behind <:+ ts := (show behind <:+ t :: b :: behind from ⟨[t, b], rfl⟩).trans hbehind
      exact .inr ⟨b, us, hbehind.mem (by simp), hb, more.wovenFrom.mono hs, rfl⟩
  | close hc more =>
      rw [closes_eq_false_of_opens ht] at hc
      cases hc

/-! ## Behind closing brackets -/

/-- A bracket that closes something behind a sequence's name either closes the parameters of the
procedure there, or stands behind them. -/
theorem closes_behind_head {b c : Token} (hc : c.closes = true)
    (h : Mark.head.replace b ++ us = xs ++ c :: vs) : vs = us ∨ ∃ ys, us = ys ++ c :: vs := by
  simp only [Mark.replace, List.cons_append, List.nil_append] at h
  rcases xs with - | ⟨x, - | ⟨y, - | ⟨z, - | ⟨q, ys⟩⟩⟩⟩ <;>
    simp only [List.cons_append, List.nil_append, List.cons.injEq] at h
  · rw [← h.1] at hc
    cases hc
  · rw [← h.2.1] at hc
    cases hc
  · rw [← h.2.2.1] at hc
    cases hc
  · exact .inl h.2.2.2.2.symm
  · exact .inr ⟨ys, h.2.2.2.2⟩

/-- Behind a closing bracket comes what was written. -/
theorem Woven.behind {c : Token} (h : Woven ts us) (hc : c.closes = true)
    (hus : us = xs ++ c :: vs) : WovenFrom ts vs := by
  induction h generalizing xs with
  | nil => simp at hus
  | @keep t ts us more ih =>
      have hs := List.suffix_cons t ts
      cases xs with
      | nil =>
          cases hus
          exact more.wovenFrom.mono hs
      | cons x xs =>
          cases hus
          exact (ih rfl).mono hs
  | @head o b ts us ho hb more ih =>
      have hs : ts <:+ o :: b :: ts := ⟨[o, b], rfl⟩
      cases xs with
      | nil =>
          cases hus
          rw [closes_eq_false_of_opens ho] at hc
          cases hc
      | cons x xs =>
          rcases closes_behind_head hc (List.cons.inj hus).2 with rfl | ⟨ys, hys⟩
          · exact more.wovenFrom.mono hs
          · exact (ih hys).mono hs
  | @close c' ts us hc' more ih =>
      have hs := List.suffix_cons c' ts
      rcases xs with - | ⟨x, - | ⟨y, xs⟩⟩
      · cases hus
        exact (Woven.keep _ more).wovenFrom
      · cases hus
        exact more.wovenFrom.mono hs
      · cases hus
        exact (ih rfl).mono hs

theorem WovenFrom.behind {c : Token} (h : WovenFrom ts (xs ++ c :: vs)) (hc : c.closes = true) :
    WovenFrom ts vs := by
  obtain ⟨behind, hbehind, hw⟩ := h
  exact (hw.behind hc rfl).mono hbehind

theorem HeadedFrom.behind {c : Token} (h : HeadedFrom ts (xs ++ c :: vs)) (hc : c.closes = true) :
    WovenFrom ts vs := by
  obtain ⟨b, more, -, -, hmore, hus⟩ := h
  rcases closes_behind_head hc hus.symm with rfl | ⟨ys, rfl⟩
  · exact hmore
  · exact hmore.behind hc

/-- A form ends with a closing bracket, or with the input. -/
theorem wovenFrom_drop_extent (ht : t.opens = true)
    (h : ∀ xs c vs, t :: us = xs ++ c :: vs → c.closes = true → WovenFrom ts vs) :
    WovenFrom ts ((t :: us).drop (extent (t :: us))) := by
  rcases closed_or_confined us with ⟨xs, c, vs, rfl, hx, hc⟩ | hconf
  · rw [drop_extent_of_balanced ht hx hc]
    exact h (t :: xs) c vs rfl hc
  · rw [drop_extent_of_confined ht hconf]
    exact wovenFrom_nil ts

/-- Behind a form comes what was written. -/
theorem WovenFrom.drop_extent (h : WovenFrom ts us) : WovenFrom ts (us.drop (extent us)) := by
  cases us with
  | nil => exact h
  | cons t us =>
      cases ht : t.opens with
      | false =>
          rw [extent_cons_of_not_opens ht]
          exact h.plain ht
      | true =>
          refine wovenFrom_drop_extent ht ?_
          intro xs c vs hus hc
          rw [hus] at h
          exact h.behind hc

/-! ## Where a sequence begins -/

/-- The written brackets are told from those in the place of a sequence's name. -/
structure Told (ctx : Context) (ts : List Token) : Prop where
  opening : ∀ t ∈ ts, t.opens = true → ctx.written t = true
  name : ∀ b ∈ ts, b.name? = some beginName →
    ctx.written ⟨.keyword .opening, b.span.first⟩ = false

variable {ctx : Context}

theorem Told.mono (h : Told ctx ts) (hs : us ⊆ ts) : Told ctx us where
  opening t ht := h.opening t (hs ht)
  name b hb := h.name b (hs hb)

/-- A procedure without parameters begins there. -/
theorem HeadedFrom.unwritten (h : HeadedFrom ts us) (htold : Told ctx ts) :
    Unwritten ctx (WovenFrom ts) us where
  shape := by
    obtain ⟨b, more, hmem, hb, hmore, rfl⟩ := h
    exact ⟨_, _, _, _, more, rfl, rfl, rfl, rfl, rfl, htold.name b hmem hb, hmore⟩
  behind := by
    obtain ⟨b, more, hmem, hb, hmore, rfl⟩ := h
    refine wovenFrom_drop_extent (t := ⟨.keyword .opening, b.span.first⟩) rfl ?_
    intro xs c vs hus hc
    have key : HeadedFrom ts (xs ++ c :: vs) := ⟨b, more, hmem, hb, hmore, hus.symm⟩
    exact key.behind hc

/-- What was written does not begin in the place of a sequence's name. -/
theorem WovenFrom.not_headedFrom (h : WovenFrom ts us) (htold : Told ctx ts) :
    ¬ HeadedFrom ts us := by
  rintro ⟨b, more, hmem, hb, -, rfl⟩
  have hyes := htold.opening _ h.mem rfl
  have hno := htold.name b hmem hb
  rw [hno] at hyes
  cases hyes

/-- Only behind an opening bracket a sequence begins. -/
theorem WovenFrom.opens_of_headedFrom (h : WovenFrom ts (t :: us)) (htold : Told ctx ts)
    (hhead : HeadedFrom ts us) : t.opens = true := by
  cases ht : t.opens with
  | true => rfl
  | false => exact absurd hhead ((h.plain ht).not_headedFrom htold)

/-- A word between brackets was written between them. -/
theorem WovenFrom.exists_of_word (h : WovenFrom ts (p :: k :: us)) (hp : p.opens = true)
    (hk : k.opens = false ∧ k.closes = false) :
    ∃ behind, (p :: k :: behind) <:+ ts ∧ Woven behind us := by
  obtain ⟨behind, hbehind, hw⟩ := h
  cases hw with
  | keep _ more =>
      cases more with
      | keep _ more => exact ⟨_, hbehind, more⟩
      | head hk' =>
          rw [hk.1] at hk'
          cases hk'
      | close hk' =>
          rw [hk.2] at hk'
          cases hk'
  | head =>
      cases hk.1
  | close hp' =>
      rw [closes_eq_false_of_opens hp] at hp'
      cases hp'

/-- A sequence that begins behind a bracket, a word and a further bracket was written there. -/
theorem exists_of_headedFrom (h : WovenFrom ts (p :: k :: o :: us)) (htold : Told ctx ts)
    (hp : p.opens = true) (hk : k.opens = false ∧ k.closes = false) (ho : o.opens = true)
    (hhead : HeadedFrom ts us) :
    ∃ b behind more, (p :: k :: o :: b :: behind) <:+ ts ∧ b.name? = some beginName ∧
      us = Mark.head.replace b ++ more := by
  obtain ⟨behind, hbehind, hw⟩ := h.exists_of_word hp hk
  cases hw with
  | @keep _ behind _ more =>
      have hs : behind <:+ ts := (show behind <:+ p :: k :: o :: behind from ⟨[p, k, o], rfl⟩).trans
        hbehind
      exact absurd hhead ((more.wovenFrom.mono hs).not_headedFrom htold)
  | head _ hb _ => exact ⟨_, _, _, hbehind, hb, rfl⟩
  | close ho' =>
      rw [closes_eq_false_of_opens ho] at ho'
      cases ho'

end Token

end SchemeFront
