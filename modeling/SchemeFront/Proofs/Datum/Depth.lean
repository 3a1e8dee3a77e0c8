import SchemeFront.Proofs.Datum.Findings
import SchemeFront.Proofs.Sameness

set_option autoImplicit false

/-! # Data without findings

If nothing is found while data are read, their lists are closed and nested no deeper than the limit
(`Datum.nestAll_of_readFrom`). The other way round, nothing is found if in the tokens all brackets
have their partners, and at most as many of them are open at once as the limit allows
(`Datum.notes_eq_nil_of_fits`).
-/

namespace SchemeFront

open Token

variable {limit : Int} {endOfInput : Span} {rounds depth : Nat} {t : Token} {ts us : List Token}

/-! ## Brackets within a limit -/

/-- Behind `depth` open brackets, all of them are closed, and what is opened is closed as well. At
most `limit` brackets are open at once. -/
inductive Token.Fits (limit : Int) : (depth : Nat) → List Token → Prop
  | nil : Fits limit 0 []
  | plain {depth : Nat} {t : Token} {ts : List Token} (ho : t.opens = false)
      (hc : t.closes = false) (more : Fits limit depth ts) : Fits limit depth (t :: ts)
  | opening {depth : Nat} {t : Token} {ts : List Token} (ho : t.opens = true)
      (hdepth : (depth : Int) < limit) (more : Fits limit (depth + 1) ts) :
      Fits limit depth (t :: ts)
  | closing {depth : Nat} {t : Token} {ts : List Token} (hc : t.closes = true)
      (more : Fits limit depth ts) : Fits limit (depth + 1) (t :: ts)

/-- Only the brackets matter. -/
theorem Token.Fits.of_bare (h : Fits limit depth ts) (hbare : ts.map bare = us.map bare) :
    Fits limit depth us := by
  induction h generalizing us with
  | nil =>
      rw [List.map_nil, eq_comm, List.map_eq_nil_iff] at hbare
      rw [hbare]
      exact .nil
  | plain ho hc more ih =>
      obtain ⟨u, us, rfl, hu, hus⟩ := List.map_eq_cons_iff.1 hbare.symm
      exact .plain (opens_eq_of_bare hu ▸ ho) (closes_eq_of_bare hu ▸ hc) (ih hus.symm)
  | opening ho hdepth more ih =>
      obtain ⟨u, us, rfl, hu, hus⟩ := List.map_eq_cons_iff.1 hbare.symm
      exact .opening (opens_eq_of_bare hu ▸ ho) hdepth (ih hus.symm)
  | closing hc more ih =>
      obtain ⟨u, us, rfl, hu, hus⟩ := List.map_eq_cons_iff.1 hbare.symm
      exact .closing (closes_eq_of_bare hu ▸ hc) (ih hus.symm)

namespace Datum

/-! ## Data within a limit -/

mutual

/-- A datum without malformed regions whose lists, with `depth` lists around them, are nested no
deeper than the limit. -/
def Nests (limit : Int) : (depth : Nat) → Datum → Prop
  | _, leaf l s => Token.opens ⟨l, s⟩ = false ∧ Token.closes ⟨l, s⟩ = false
  | depth, list ds _ => (depth : Int) < limit ∧ NestAll limit (depth + 1) ds
  | _, broken _ _ => False

/-- The same of all data of a list. -/
def NestAll (limit : Int) : (depth : Nat) → List Datum → Prop
  | _, [] => True
  | depth, d :: ds => Nests limit depth d ∧ NestAll limit depth ds

end

mutual

/-- If nothing is found in it, a datum nests within the limit. Only a list around it can be
reported as never closed, and then all tokens have been taken. -/
theorem nests_of_read (limit : Int) (endOfInput : Span) (fuel depth : Nat) (t : Token)
    (ts : List Token) {r : Reading Datum} (ht : t.closes = false)
    (h : read limit endOfInput fuel depth t ts = .ok r) (hnotes : r.notes = []) :
    r.value.Nests limit depth ∨ (0 < depth ∧ r.rest = []) := by
  cases fuel with
  | zero => cases h
  | succ fuel =>
      rw [read] at h
      split at h
      · rename_i ho
        cases h
        exact .inl ⟨by simpa using ho, ht⟩
      · split at h
        · obtain ⟨span, -, hr⟩ := exists_of_bind_eq_ok h
          cases hr
          cases hnotes
        · rename_i hdepth
          obtain ⟨elements, hel, hr⟩ := exists_of_bind_eq_ok h
          have hgathers := gathers_of_readElements limit endOfInput fuel depth ts hel
          unfold finish at hr
          cases hclosing : elements.value.closing with
          | some c =>
              rw [hclosing] at hr
              cases hr
              exact .inl ⟨Int.not_le.1 hdepth,
                nestAll_of_readElements limit endOfInput fuel depth ts hel hnotes hclosing⟩
          | none =>
              rw [hclosing] at hr
              obtain ⟨span, -, hr⟩ := exists_of_bind_eq_ok hr
              cases hr
              rcases Nat.eq_zero_or_pos depth with rfl | hpos
              · simp [hgathers.depth_eq] at hnotes
              · exact .inr ⟨hpos, (hgathers.unclosed hclosing).2.1⟩

theorem nestAll_of_readElements (limit : Int) (endOfInput : Span) (fuel depth : Nat)
    (ts : List Token) {r : Reading Elements} {c : Token}
    (h : readElements limit endOfInput fuel (depth + 1) ts = .ok r) (hnotes : r.notes = [])
    (hc : r.value.closing = some c) : NestAll limit (depth + 1) r.value.children := by
  cases fuel with
  | zero => cases h
  | succ fuel =>
      cases ts with
      | nil =>
          cases h
          cases hc
      | cons t ts =>
          rw [readElements] at h
          split at h
          · cases h
            trivial
          · rename_i ht
            have ht : t.closes = false := by simpa using ht
            obtain ⟨first, hfirst, h⟩ := exists_of_bind_eq_ok h
            obtain ⟨more, hmore, hr⟩ := exists_of_bind_eq_ok h
            cases hr
            obtain ⟨hone, hall⟩ := List.append_eq_nil_iff.1 hnotes
            have hsettles := settles_of_read limit endOfInput fuel (depth + 1) t ts ht hfirst
            rw [hsettles.depth_eq] at hmore
            have hnest := nests_of_read limit endOfInput fuel (depth + 1) t ts ht hfirst hone
            refine ⟨hnest.resolve_right ?_,
              nestAll_of_readElements limit endOfInput fuel depth first.rest hmore hall hc⟩
            -- Where no tokens are left, there is no closing bracket either.
            rintro ⟨-, hrest⟩
            rw [hrest] at hmore
            cases fuel <;> cases hmore
            cases hc

end

/-- If nothing is found, the data nest within the limit. -/
theorem nestAll_of_readFrom {r : Reading (List Datum)}
    (h : readFrom limit endOfInput rounds 0 ts = .ok r) (hnotes : r.notes = []) :
    NestAll limit 0 r.value := by
  induction rounds generalizing ts r with
  | zero =>
      cases ts with
      | nil =>
          cases h
          trivial
      | cons t ts => cases h
  | succ rounds ih =>
      cases ts with
      | nil =>
          cases h
          trivial
      | cons t ts =>
          rw [readFrom] at h
          obtain ⟨first, hfirst, h⟩ := exists_of_bind_eq_ok h
          obtain ⟨more, hmore, hr⟩ := exists_of_bind_eq_ok h
          cases hr
          obtain ⟨hone, hall⟩ := List.append_eq_nil_iff.1 hnotes
          unfold readNext at hfirst
          split at hfirst
          · cases hfirst
            cases hone
          · rename_i ht
            have ht : t.closes = false := by simpa using ht
            rw [(settles_of_read limit endOfInput _ 0 t ts ht hfirst).depth_eq] at hmore
            have hnest := nests_of_read limit endOfInput _ 0 t ts ht hfirst hone
            exact ⟨hnest.resolve_right (by simp), ih hmore hall⟩

/-! ## Reading brackets within a limit -/

mutual

/-- In brackets within the limit nothing is found, and those behind a datum are so too. -/
theorem fits_of_read (limit : Int) (endOfInput : Span) (fuel depth : Nat) (t : Token)
    (ts : List Token) {r : Reading Datum} (ht : t.closes = false)
    (hfits : Fits limit depth (t :: ts)) (h : read limit endOfInput fuel depth t ts = .ok r) :
    r.notes = [] ∧ Fits limit depth r.rest := by
  cases fuel with
  | zero => cases h
  | succ fuel =>
      rw [read] at h
      cases hfits with
      | closing hc more =>
          rw [ht] at hc
          cases hc
      | plain ho hc more =>
          rw [if_pos (by simp [ho])] at h
          cases h
          exact ⟨rfl, more⟩
      | opening ho hdepth more =>
          rw [if_neg (by simp [ho]), if_neg (Int.not_le.2 hdepth)] at h
          obtain ⟨elements, hel, hr⟩ := exists_of_bind_eq_ok h
          obtain ⟨hnotes, hclosing, hrest⟩ :=
            fits_of_readElements limit endOfInput fuel depth ts more hel
          obtain ⟨c, hc⟩ := Option.isSome_iff_exists.1 hclosing
          rw [finish, hc] at hr
          cases hr
          exact ⟨hnotes, hrest⟩

theorem fits_of_readElements (limit : Int) (endOfInput : Span) (fuel depth : Nat)
    (ts : List Token) {r : Reading Elements} (hfits : Fits limit (depth + 1) ts)
    (h : readElements limit endOfInput fuel (depth + 1) ts = .ok r) :
    r.notes = [] ∧ r.value.closing.isSome ∧ Fits limit depth r.rest := by
  cases fuel with
  | zero => cases h
  | succ fuel =>
      cases ts with
      | nil => cases hfits
      | cons t ts =>
          rw [readElements] at h
          split at h
          · rename_i ht
            cases h
            cases hfits with
            | closing hc more => exact ⟨rfl, rfl, more⟩
            | plain ho hc more =>
                rw [ht] at hc
                cases hc
            | opening ho hdepth more =>
                rw [closes_eq_false_of_opens ho] at ht
                cases ht
          · rename_i ht
            have ht : t.closes = false := by simpa using ht
            obtain ⟨first, hfirst, h⟩ := exists_of_bind_eq_ok h
            obtain ⟨more, hmore, hr⟩ := exists_of_bind_eq_ok h
            cases hr
            have hsettles := settles_of_read limit endOfInput fuel (depth + 1) t ts ht hfirst
            rw [hsettles.depth_eq] at hmore
            obtain ⟨hone, hrest⟩ :=
              fits_of_read limit endOfInput fuel (depth + 1) t ts ht hfits hfirst
            obtain ⟨hall, hclosing, hlast⟩ :=
              fits_of_readElements limit endOfInput fuel depth first.rest hrest hmore
            exact ⟨List.append_eq_nil_iff.2 ⟨hone, hall⟩, hclosing, hlast⟩

end

/-- In brackets within the limit nothing is found. -/
theorem notes_eq_nil_of_fits {r : Reading (List Datum)} (hfits : Fits limit 0 ts)
    (h : readFrom limit endOfInput rounds 0 ts = .ok r) : r.notes = [] := by
  induction rounds generalizing ts r with
  | zero =>
      cases ts with
      | nil =>
          cases h
          rfl
      | cons t ts => cases h
  | succ rounds ih =>
      cases ts with
      | nil =>
          cases h
          rfl
      | cons t ts =>
          rw [readFrom] at h
          obtain ⟨first, hfirst, h⟩ := exists_of_bind_eq_ok h
          obtain ⟨more, hmore, hr⟩ := exists_of_bind_eq_ok h
          cases hr
          have ht : t.closes = false := by
            cases hfits with
            | plain ho hc more => exact hc
            | opening ho hdepth more => exact closes_eq_false_of_opens ho
          rw [readNext, if_neg (by simp [ht])] at hfirst
          rw [(settles_of_read limit endOfInput _ 0 t ts ht hfirst).depth_eq] at hmore
          obtain ⟨hone, hrest⟩ := fits_of_read limit endOfInput _ 0 t ts ht hfits hfirst
          exact List.append_eq_nil_iff.2 ⟨hone, ih hrest hmore⟩

end Datum

end SchemeFront
