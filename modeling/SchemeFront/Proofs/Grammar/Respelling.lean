import SchemeFront.Proofs.Grammar.Spelling
import SchemeFront.Proofs.Parse.Ample

set_option autoImplicit false

/-! # The two spellings of a procedure definition

`(define (f a …) body)` stands for `(define f (lambda (a …) body))`. A list of lexemes is respelled
by writing some of the definitions in it, at any depth, in the other of the two ways (`Respelled`).

To follow a derivation through a list that is respelled, both lists are read from left to right, and
for each open bracket it is kept in mind how the form is spelled in each of them (`Follows`). Then
what is derived from a part of the first list is spelled by the part of the second one that follows
it (`Carries`), by induction over the levels of forms (`carriesAt`).
-/

namespace SchemeFront

open Lexeme

variable {n m : Nat} {s : Span} {xs ys vs ws zs rest : List Lexeme} {ts us : List Token}
  {e : Expr} {es : List Expr} {d : Definition} {ds : List Definition} {b : Body}

/-! ## Respelling -/

namespace Lexeme

/-- `(define (f a …) body)` -/
def shorthand (f : String) (params : List String) (body : List Lexeme) : List Lexeme :=
  bracketed (.keyword .define :: (bracketed (names (f :: params)) ++ body))

/-- `(define f (lambda (a …) body))` -/
def longhand (f : String) (params : List String) (body : List Lexeme) : List Lexeme :=
  bracketed (.keyword .define :: .atom (.ident f) ::
    bracketed (.keyword .lambda :: (bracketed (names params) ++ body)))

/-- Some definitions of procedures are spelled in the other way, whatever is around them, and so may
those in their bodies. -/
inductive Respelled : List Lexeme → List Lexeme → Prop
  | nil : Respelled [] []
  | leaf {xs ys : List Lexeme} (l : Lexeme) (ho : l ≠ .keyword .opening)
      (hc : l ≠ .keyword .closing) (more : Respelled xs ys) : Respelled (l :: xs) (l :: ys)
  | form {xs ys vs ws : List Lexeme} (inside : Respelled xs ys) (more : Respelled vs ws) :
      Respelled (bracketed xs ++ vs) (bracketed ys ++ ws)
  | unfold {xs ys vs ws : List Lexeme} (f : String) (params : List String)
      (body : Respelled xs ys) (more : Respelled vs ws) :
      Respelled (shorthand f params xs ++ vs) (longhand f params ys ++ ws)
  | fold {xs ys vs ws : List Lexeme} (f : String) (params : List String)
      (body : Respelled xs ys) (more : Respelled vs ws) :
      Respelled (longhand f params xs ++ vs) (shorthand f params ys ++ ws)

end Lexeme

/-! ## Reading two lists side by side -/

/-- How an open form is spelled in two lists: the same way, or in one of them as a shorthand. -/
inductive Seam where
  | plain
  | unfolded
  | folded

/-- What closes the form in the first list. -/
def Seam.left : Seam → List Lexeme
  | plain | unfolded => [.keyword .closing]
  | folded => [.keyword .closing, .keyword .closing]

/-- What closes the form in the second list. -/
def Seam.right : Seam → List Lexeme
  | plain | folded => [.keyword .closing]
  | unfolded => [.keyword .closing, .keyword .closing]

namespace Lexeme

/-- `(define (f a …)`, up to the body. -/
def shortHead (f : String) (params : List String) : List Lexeme :=
  .keyword .opening :: .keyword .define :: bracketed (names (f :: params))

/-- `(define f (lambda (a …)`, up to the body. -/
def longHead (f : String) (params : List String) : List Lexeme :=
  .keyword .opening :: .keyword .define :: .atom (.ident f) ::
    .keyword .opening :: .keyword .lambda :: bracketed (names params)

/-- The second list follows the first one inside of the forms `stack`. -/
inductive Follows : (stack : List Seam) → List Lexeme → List Lexeme → Prop
  | nil : Follows [] [] []
  | leaf {stack : List Seam} {xs ys : List Lexeme} (l : Lexeme) (ho : l ≠ .keyword .opening)
      (hc : l ≠ .keyword .closing) (more : Follows stack xs ys) : Follows stack (l :: xs) (l :: ys)
  | opening {stack : List Seam} {xs ys : List Lexeme} (more : Follows (.plain :: stack) xs ys) :
      Follows stack (.keyword .opening :: xs) (.keyword .opening :: ys)
  | unfold {stack : List Seam} {xs ys : List Lexeme} (f : String) (params : List String)
      (more : Follows (.unfolded :: stack) xs ys) :
      Follows stack (shortHead f params ++ xs) (longHead f params ++ ys)
  | fold {stack : List Seam} {xs ys : List Lexeme} (f : String) (params : List String)
      (more : Follows (.folded :: stack) xs ys) :
      Follows stack (longHead f params ++ xs) (shortHead f params ++ ys)
  | closing {stack : List Seam} {xs ys : List Lexeme} (seam : Seam) (more : Follows stack xs ys) :
      Follows (seam :: stack) (seam.left ++ xs) (seam.right ++ ys)

variable {stack : List Seam}

/-- A list that is respelled is followed, whatever comes behind. -/
theorem Respelled.follows (h : Respelled xs ys) (hrest : Follows stack vs ws) :
    Follows stack (xs ++ vs) (ys ++ ws) := by
  induction h generalizing stack vs ws with
  | nil => exact hrest
  | leaf l ho hc more ih => exact .leaf l ho hc (ih hrest)
  | form inside more ihinside ihmore =>
      have := Follows.opening (ihinside (.closing .plain (ihmore hrest)))
      simpa [bracketed, Seam.left, Seam.right] using this
  | unfold f params body more ihbody ihmore =>
      have := Follows.unfold f params (ihbody (.closing .unfolded (ihmore hrest)))
      simpa [shorthand, longhand, shortHead, longHead, bracketed, Seam.left, Seam.right] using this
  | fold f params body more ihbody ihmore =>
      have := Follows.fold f params (ihbody (.closing .folded (ihmore hrest)))
      simpa [shorthand, longhand, shortHead, longHead, bracketed, Seam.left, Seam.right] using this

namespace Follows

theorem exists_of_leaf {l : Lexeme} (ho : l ≠ .keyword .opening) (hc : l ≠ .keyword .closing)
    (h : Follows stack (l :: xs) zs) : ∃ ys, zs = l :: ys ∧ Follows stack xs ys := by
  generalize hl : l :: xs = ls at h
  cases h with
  | nil => cases hl
  | leaf k ho' hc' more =>
      obtain ⟨rfl, rfl⟩ := List.cons.inj hl
      exact ⟨_, rfl, more⟩
  | opening more => exact absurd (List.cons.inj hl).1 ho
  | unfold f params more => exact absurd (List.cons.inj hl).1 ho
  | fold f params more => exact absurd (List.cons.inj hl).1 ho
  | closing seam more => cases seam <;> exact absurd (List.cons.inj hl).1 hc

theorem exists_of_closing {seam : Seam} (h : Follows (seam :: stack) (seam.left ++ xs) zs) :
    ∃ ys, zs = seam.right ++ ys ∧ Follows stack xs ys := by
  have hleft : ∃ ls, seam.left ++ xs = .keyword .closing :: ls := by
    cases seam <;> exact ⟨_, rfl⟩
  generalize hl : seam.left ++ xs = ls at h
  obtain ⟨tail, htail⟩ := hleft
  rw [hl] at htail
  cases h with
  | leaf k ho hc more => exact absurd (List.cons.inj htail).1 hc
  | opening more => cases htail
  | unfold f params more => cases htail
  | fold f params more => cases htail
  | closing seam more => exact ⟨_, rfl, List.append_cancel_left hl ▸ more⟩

/-- A bracket opens a form that is spelled the same way, or one of the two spellings. -/
theorem opening_cases (h : Follows stack (.keyword .opening :: xs) zs) :
    (∃ ys, zs = .keyword .opening :: ys ∧ Follows (.plain :: stack) xs ys) ∨
    (∃ f params vs ys, .keyword .opening :: xs = shortHead f params ++ vs ∧
      zs = longHead f params ++ ys ∧ Follows (.unfolded :: stack) vs ys) ∨
    ∃ f params vs ys, .keyword .opening :: xs = longHead f params ++ vs ∧
      zs = shortHead f params ++ ys ∧ Follows (.folded :: stack) vs ys := by
  generalize hl : Lexeme.keyword .opening :: xs = ls at h
  cases h with
  | nil => cases hl
  | leaf l ho hc more => exact absurd (List.cons.inj hl).1.symm ho
  | opening more =>
      obtain ⟨-, rfl⟩ := List.cons.inj hl
      exact .inl ⟨_, rfl, more⟩
  | unfold f params more => exact .inr (.inl ⟨f, params, _, _, rfl, rfl, more⟩)
  | fold f params more => exact .inr (.inr ⟨f, params, _, _, rfl, rfl, more⟩)
  | closing seam more => cases seam <;> cases hl

/-- A form that is no definition is spelled the same way. -/
theorem exists_of_opening (hdefine : xs.head? ≠ some (.keyword .define))
    (h : Follows stack (.keyword .opening :: xs) zs) :
    ∃ ys, zs = .keyword .opening :: ys ∧ Follows (.plain :: stack) xs ys := by
  rcases h.opening_cases with h | ⟨f, params, vs, ys, hxs, -⟩ | ⟨f, params, vs, ys, hxs, -⟩
  · exact h
  · obtain ⟨-, rfl⟩ := List.cons.inj hxs
    exact absurd rfl hdefine
  · obtain ⟨-, rfl⟩ := List.cons.inj hxs
    exact absurd rfl hdefine

end Follows

/-! ## What is carried over -/

/-- Whatever follows the lexemes `xs` begins with lexemes that `L` holds of, for each number of
levels that is twice as large as `n` or more: a definition that is written out is two forms, one in
the other. -/
def Carries (n : Nat) (xs : List Lexeme) (L : Nat → List Lexeme → Prop) : Prop :=
  ∀ stack rest zs, Follows stack (xs ++ rest) zs →
    ∃ ys rest', zs = ys ++ rest' ∧ Follows stack rest rest' ∧ ∀ m, 2 * n ≤ m → L m ys

namespace Carries

variable {L M : Nat → List Lexeme → Prop}

theorem mono (h : Carries n xs L) (hLM : ∀ m ys, 2 * n ≤ m → L m ys → M m ys) :
    Carries n xs M := by
  intro stack rest zs hzs
  obtain ⟨ys, rest', rfl, hrest, hL⟩ := h _ _ _ hzs
  exact ⟨ys, rest', rfl, hrest, fun m hm => hLM m ys hm (hL m hm)⟩

theorem nil (n : Nat) : Carries n [] fun _ ys => ys = [] :=
  fun _ _ zs hzs => ⟨[], zs, rfl, hzs, fun _ _ => rfl⟩

theorem append (hx : Carries n xs L) (hv : Carries n vs M) :
    Carries n (xs ++ vs) fun m zs => ∃ ys ws, zs = ys ++ ws ∧ L m ys ∧ M m ws := by
  intro stack rest zs hzs
  rw [List.append_assoc] at hzs
  obtain ⟨ys, mid, rfl, hmid, hL⟩ := hx _ _ _ hzs
  obtain ⟨ws, rest', rfl, hrest, hM⟩ := hv _ _ _ hmid
  exact ⟨ys ++ ws, rest', (List.append_assoc ..).symm, hrest,
    fun m hm => ⟨ys, ws, rfl, hL m hm, hM m hm⟩⟩

theorem leaf {l : Lexeme} (ho : l ≠ .keyword .opening) (hc : l ≠ .keyword .closing)
    (hx : Carries n xs L) : Carries n (l :: xs) fun m zs => ∃ ys, zs = l :: ys ∧ L m ys := by
  intro stack rest zs hzs
  obtain ⟨zs, rfl, hmore⟩ := hzs.exists_of_leaf ho hc
  obtain ⟨ys, rest', rfl, hrest, hL⟩ := hx _ _ _ hmore
  exact ⟨l :: ys, rest', rfl, hrest, fun m hm => ⟨ys, rfl, hL m hm⟩⟩

/-- In a form that is open, up to where it is closed. -/
theorem closed (seam : Seam) (hx : Carries n xs L)
    (h : Follows (seam :: stack) (xs ++ (seam.left ++ rest)) zs) :
    ∃ ys rest', zs = ys ++ (seam.right ++ rest') ∧ Follows stack rest rest' ∧
      ∀ m, 2 * n ≤ m → L m ys := by
  obtain ⟨ys, mid, rfl, hmid, hL⟩ := hx _ _ _ h
  obtain ⟨rest', rfl, hrest⟩ := hmid.exists_of_closing
  exact ⟨ys, rest', rfl, hrest, hL⟩

theorem bracketed (hdefine : xs.head? ≠ some (.keyword .define)) (hx : Carries n xs L) :
    Carries n (Lexeme.bracketed xs) fun m zs => ∃ ys, zs = Lexeme.bracketed ys ∧ L m ys := by
  intro stack rest zs hzs
  rw [Lexeme.bracketed, List.cons_append, List.append_assoc] at hzs
  have hhead : (xs ++ ([Lexeme.keyword .closing] ++ rest)).head? ≠ some (.keyword .define) := by
    cases xs with
    | nil => simp
    | cons l xs => exact hdefine
  obtain ⟨zs, rfl, hinside⟩ := hzs.exists_of_opening hhead
  obtain ⟨ys, rest', rfl, hrest, hL⟩ := hx.closed .plain hinside
  exact ⟨Lexeme.bracketed ys, rest', by simp [Lexeme.bracketed, Seam.right], hrest,
    fun m hm => ⟨ys, rfl, hL m hm⟩⟩

theorem names (n : Nat) (params : List String) :
    Carries n (Lexeme.names params) fun _ ys => ys = Lexeme.names params := by
  induction params with
  | nil => exact .nil n
  | cons p params ih =>
      refine (ih.leaf (l := .atom (.ident p)) (by simp) (by simp)).mono ?_
      rintro m zs - ⟨ys, rfl, rfl⟩
      rfl

/-- With a level more, `L` holds for a number that is one less at least. -/
theorem succ (h : Carries n xs L) :
    Carries (n + 1) xs fun m ys => ∃ k, m = k + 1 ∧ L k ys := by
  intro stack rest zs hzs
  obtain ⟨ys, rest', rfl, hrest, hL⟩ := h _ _ _ hzs
  exact ⟨ys, rest', rfl, hrest, fun m hm => ⟨m - 1, by omega, hL (m - 1) (by omega)⟩⟩

end Carries

end Lexeme

/-! ## Expressions -/

open Token (lexeme_eq_of_opens lexeme_eq_of_closes)

theorem Identifier.map_lexeme_token (is : List Identifier) :
    (is.map Identifier.token).map Token.lexeme = names (is.map Identifier.name) := by
  simp [names, Identifier.token]

theorem Lexeme.map_bracketed {o k : Token} (ho : o.opens = true) (hk : k.closes = true)
    (ts : List Token) : (o :: (ts ++ [k])).map Token.lexeme = bracketed (ts.map Token.lexeme) := by
  simp [bracketed, lexeme_eq_of_opens ho, lexeme_eq_of_closes hk]

theorem Lexeme.map_formals {o k : Token} (ho : o.opens = true) (hk : k.closes = true)
    (is : List Identifier) (ts : List Token) :
    (o :: (is.map Identifier.token ++ k :: ts)).map Token.lexeme =
      bracketed (names (is.map Identifier.name)) ++ ts.map Token.lexeme := by
  rw [← Identifier.map_lexeme_token, ← map_bracketed ho hk]
  simp

/-- What is derived with `n` levels is spelled by whatever follows it. -/
structure CarriesAt (n : Nat) : Prop where
  expr : ∀ {ts e}, DerivesExpr n ts e →
    Carries n (ts.map Token.lexeme) fun m ys => SpellsExpr m ys e
  body : ∀ {ts b}, DerivesBody n ts b →
    Carries n (ts.map Token.lexeme) fun m ys => SpellsBody m ys b

namespace CarriesAt

theorem exprs (h : ∀ ts e, DerivesExpr n ts e →
      Carries n (ts.map Token.lexeme) fun m ys => SpellsExpr m ys e)
    (hes : DerivesExprs n ts es) :
    Carries n (ts.map Token.lexeme) fun m ys => SpellsExprs m ys es := by
  induction es generalizing ts with
  | nil =>
      cases hes
      refine (Carries.nil n).mono ?_
      rintro m ys - rfl
      exact spellsExprs_nil m
  | cons e es ih =>
      cases hes with
      | cons he hes =>
          rw [List.map_append]
          refine ((h _ e he).append (ih hes)).mono ?_
          rintro m zs - ⟨ys, ws, rfl, hy, hw⟩
          exact hy.cons hw

theorem form (h : CarriesAt n) (hform : DerivesForm n s ts e) :
    Carries n (ts.map Token.lexeme) fun m ys => SpellsForm m ys e := by
  cases hform with
  | choice hw htest hconseq =>
      rw [List.map_cons, List.map_append, hw]
      refine (((h.expr htest).append (h.expr hconseq)).leaf (by simp) (by simp)).mono ?_
      rintro m zs - ⟨_, rfl, ys, ws, rfl, hy, hw⟩
      exact hy.choice hw
  | choiceElse hw htest hconseq halter =>
      rw [List.map_cons, List.map_append, List.map_append, hw]
      refine (((h.expr htest).append ((h.expr hconseq).append (h.expr halter))).leaf
        (by simp) (by simp)).mono ?_
      rintro m zs - ⟨_, rfl, ys, _, rfl, hy, vs, ws, rfl, hv, hw⟩
      exact hy.choiceElse hv hw
  | @variadic _ _ w i ts b hw hbody =>
      rw [List.map_cons, List.map_cons, hw]
      refine (((h.body hbody).leaf (l := .atom (.ident i.name)) (by simp) (by simp)).leaf
        (by simp) (by simp)).mono ?_
      rintro m zs - ⟨_, rfl, ys, rfl, hy⟩
      exact hy.variadic
  | @procedure _ _ w o k is ts b hw ho hk his hbody =>
      rw [List.map_cons, map_formals ho hk, hw]
      refine ((((Carries.names n _).bracketed ?_).append (h.body hbody)).leaf
        (by simp) (by simp)).mono ?_
      · cases is <;> simp [names]
      · rintro m zs - ⟨_, rfl, _, ys, rfl, ⟨_, rfl, rfl⟩, hy⟩
        exact hy.procedure his
  | @assignment _ _ w i ts e hw hvalue =>
      rw [List.map_cons, List.map_cons, hw]
      refine (((h.expr hvalue).leaf (l := .atom (.ident i.name)) (by simp) (by simp)).leaf
        (by simp) (by simp)).mono ?_
      rintro m zs - ⟨_, rfl, ys, rfl, hy⟩
      exact hy.assignment
  | call hoperator hargs =>
      rw [List.map_append]
      refine ((h.expr hoperator).append (exprs (fun _ _ => h.expr) hargs)).mono ?_
      rintro m zs - ⟨ys, ws, rfl, hy, hw⟩
      exact hy.call hw

/-- An expression is an atom, or a form one level further in. -/
theorem expr_of_lt (h : ∀ k < n, CarriesAt k) (he : DerivesExpr n ts e) :
    Carries n (ts.map Token.lexeme) fun m ys => SpellsExpr m ys e := by
  cases he with
  | atom _ s a =>
      refine ((Carries.nil n).leaf (l := .atom a) (by simp) (by simp)).mono ?_
      rintro m zs - ⟨_, rfl, rfl⟩
      exact spellsExpr_atom m s a
  | @form k _ _ _ _ ho hk hform =>
      rw [map_bracketed ho hk]
      refine (((h k (Nat.lt_succ_self k)).form hform).bracketed ?_).succ.mono ?_
      · obtain ⟨t, us, rfl, ht⟩ := hform.exists_head
        simpa using ht
      · rintro m zs - ⟨k, rfl, ys, rfl, hy⟩
        exact hy.expr

end CarriesAt

/-! ## Definitions -/

/-- Names end at the bracket behind them. -/
theorem Lexeme.eq_of_names_append {params params' : List String}
    (h : names params ++ .keyword .closing :: xs = names params' ++ .keyword .closing :: ys) :
    params = params' ∧ xs = ys := by
  induction params generalizing params' with
  | nil =>
      cases params' with
      | nil => exact ⟨rfl, (List.cons.inj h).2⟩
      | cons p params' => cases (List.cons.inj h).1
  | cons p params ih =>
      cases params' with
      | nil => cases (List.cons.inj h).1
      | cons p' params' =>
          obtain ⟨hp, hmore⟩ := List.cons.inj h
          cases hp
          obtain ⟨rfl, hxs⟩ := ih hmore
          exact ⟨rfl, hxs⟩

/-- What begins like a procedure with a list of parameters is one. -/
theorem DerivesExpr.exists_procedure {params : List String} (he : DerivesExpr n ts e)
    (h : ts.map Token.lexeme ++ rest =
      .keyword .opening :: .keyword .lambda :: (bracketed (names params) ++ vs)) :
    ∃ k s is us b, n = k + 1 ∧ e = .procedure s false is b ∧ Identifier.Distinct is ∧
      params = is.map Identifier.name ∧ DerivesBody k us b ∧
      vs = us.map Token.lexeme ++ .keyword .closing :: rest := by
  cases he with
  | atom n s a => cases (List.cons.inj h).1
  | @form k o c ts e ho hc hform =>
      rw [map_bracketed ho hc] at h
      simp only [bracketed, List.cons_append, List.cons.injEq, true_and] at h
      cases hform with
      | choice hw htest hconseq => simp [hw] at h
      | choiceElse hw htest hconseq halter => simp [hw] at h
      | variadic hw hbody => simp [hw, Identifier.token] at h
      | assignment hw hvalue => simp [hw] at h
      | call hoperator hargs =>
          obtain ⟨t, us, rfl, ht⟩ := hoperator.exists_head
          obtain ⟨hlex, -⟩ : t.lexeme = .keyword .lambda ∧ _ := by
            simpa only [List.cons_append, List.map_cons, List.cons.injEq] using h
          -- The operator would begin with the keyword.
          exact absurd hlex (ht.lexeme_ne (by decide))
      | @procedure _ _ w o' c' is us b hw ho' hc' his hbody =>
          rw [List.map_cons, map_formals ho' hc', hw] at h
          obtain ⟨hnames, hvs⟩ := eq_of_names_append (by simpa [bracketed] using h)
          exact ⟨k, _, is, us, b, rfl, rfl, his, hnames.symm, hbody, hvs.symm⟩

namespace CarriesAt

/-- A definition of a value. If the value is a procedure, the shorthand may take its place. -/
theorem definition_value {i : Identifier} (h : ∀ k ≤ n, CarriesAt k) (he : DerivesExpr n ts e) :
    Carries (n + 1)
      (bracketed (.keyword .define :: .atom (.ident i.name) :: ts.map Token.lexeme))
      fun m ys => SpellsDefinition m ys ⟨s, i, e⟩ := by
  intro stack rest zs hzs
  rw [bracketed, List.cons_append, List.append_assoc] at hzs
  rcases hzs.opening_cases with
    ⟨zs, rfl, hinside⟩ | ⟨f, params, vs, zs, hxs, -⟩ | ⟨f, params, vs, zs, hxs, rfl, hbody⟩
  -- The form is kept, or its value is a procedure and is taken apart. A shorthand it is not.
  · have hcarries := (((h n (Nat.le_refl n)).expr he).leaf (l := .atom (.ident i.name))
      (by simp) (by simp)).leaf (l := .keyword .define) (by simp) (by simp)
    obtain ⟨ys, rest', rfl, hrest, hL⟩ := hcarries.closed .plain hinside
    refine ⟨bracketed ys, rest', by simp [bracketed, Seam.right], hrest, fun m hm => ?_⟩
    obtain ⟨m, rfl⟩ := Nat.exists_eq_add_of_le' (show 1 ≤ m by omega)
    obtain ⟨_, rfl, ys, rfl, hy⟩ := hL m (by omega)
    exact hy.value.definition
  · simp [shortHead, bracketed] at hxs
  · obtain ⟨hname, hvalue⟩ : i.name = f ∧ ts.map Token.lexeme ++ .keyword .closing :: rest =
        .keyword .opening :: .keyword .lambda :: (bracketed (names params) ++ vs) := by
      simpa [longHead] using hxs
    obtain ⟨k, s', is, us, b, rfl, rfl, his, rfl, hb, rfl⟩ := he.exists_procedure hvalue
    obtain ⟨ys, rest', rfl, hrest, hL⟩ :=
      ((h k (Nat.le_succ k)).body hb).closed .folded hbody
    refine ⟨shorthand f (is.map Identifier.name) ys, rest', ?_, hrest, fun m hm => ?_⟩
    · simp [shorthand, shortHead, bracketed, Seam.right]
    · obtain ⟨m, rfl⟩ := Nat.exists_eq_add_of_le' (show 1 ≤ m by omega)
      rw [← hname]
      exact ((hL m (by omega)).named his).definition

/-- A definition of a procedure as a shorthand, which may be written out. -/
theorem definition_procedure {i : Identifier} {is : List Identifier} {s' : Span}
    (h : CarriesAt n) (his : Identifier.Distinct is) (hb : DerivesBody n ts b) :
    Carries (n + 1)
      (bracketed (.keyword .define ::
        (bracketed (names (i.name :: is.map Identifier.name)) ++ ts.map Token.lexeme)))
      fun m ys => SpellsDefinition m ys ⟨s, i, .procedure s' false is b⟩ := by
  intro stack rest zs hzs
  rw [bracketed, List.cons_append, List.append_assoc] at hzs
  rcases hzs.opening_cases with
    ⟨zs, rfl, hinside⟩ | ⟨f, params, vs, zs, hxs, rfl, hbody⟩ | ⟨f, params, vs, zs, hxs, -⟩
  · have hformals := (Carries.names n (i.name :: is.map Identifier.name)).bracketed
      (by simp [names])
    have hcarries := (hformals.append (h.body hb)).leaf (l := .keyword .define) (by simp) (by simp)
    obtain ⟨ys, rest', rfl, hrest, hL⟩ := hcarries.closed .plain hinside
    refine ⟨bracketed ys, rest', by simp [bracketed, Seam.right], hrest, fun m hm => ?_⟩
    obtain ⟨m, rfl⟩ := Nat.exists_eq_add_of_le' (show 1 ≤ m by omega)
    obtain ⟨_, rfl, _, ys, rfl, ⟨_, rfl, rfl⟩, hy⟩ := hL m (by omega)
    exact (hy.named his).definition
  · have hnames : names (i.name :: is.map Identifier.name) ++ .keyword .closing ::
        (ts.map Token.lexeme ++ .keyword .closing :: rest) =
          names (f :: params) ++ .keyword .closing :: vs := by
      simpa [shortHead, bracketed] using hxs
    obtain ⟨hparams, rfl⟩ := eq_of_names_append hnames
    obtain ⟨rfl, rfl⟩ := List.cons.inj hparams
    obtain ⟨ys, rest', rfl, hrest, hL⟩ := (h.body hb).closed .unfolded hbody
    refine ⟨longhand i.name (is.map Identifier.name) ys, rest', ?_, hrest, fun m hm => ?_⟩
    · simp [longhand, longHead, bracketed, Seam.right]
    · -- The procedure is one more form, inside of the definition.
      obtain ⟨m, rfl⟩ := Nat.exists_eq_add_of_le' (show 2 ≤ m by omega)
      exact ((hL m (by omega)).procedure his).expr.value.definition
  · simp [longHead, bracketed] at hxs

theorem definitions (h : ∀ k < n, CarriesAt k) (hds : DerivesDefinitions n ts ds) :
    Carries n (ts.map Token.lexeme) fun m ys => SpellsDefinitions m ys ds := by
  induction ds generalizing ts with
  | nil =>
      cases hds
      refine (Carries.nil n).mono ?_
      rintro m ys - rfl
      exact spellsDefinitions_nil m
  | cons d ds ih =>
      cases hds with
      | @cons _ ts us _ _ hd hds =>
          have hone : Carries n (ts.map Token.lexeme) fun m ys => SpellsDefinition m ys d := by
            cases hd with
            | @form k o c us d ho hc hbinding =>
                rw [map_bracketed ho hc]
                have hle : ∀ j ≤ k, CarriesAt j := fun j hj => h j (Nat.lt_succ_of_le hj)
                cases hbinding with
                | value hw hvalue =>
                    rw [List.map_cons, List.map_cons, hw]
                    exact definition_value hle hvalue
                | @procedure _ _ w o' c' i is us b hw ho' hc' his hbody =>
                    have hformals : (o' :: i.token :: (is.map Identifier.token ++ c' :: us)).map
                        Token.lexeme =
                          bracketed (names (i.name :: is.map Identifier.name)) ++
                            us.map Token.lexeme :=
                      map_formals ho' hc' (i :: is) us
                    rw [List.map_cons, hw, hformals]
                    exact definition_procedure (hle k (Nat.le_refl k)) his hbody
          rw [List.map_append]
          refine (hone.append (ih hds)).mono ?_
          rintro m zs - ⟨ys, ws, rfl, hy, hw⟩
          exact hy.cons hw

end CarriesAt

/-- At every level. -/
theorem carriesAt (n : Nat) : CarriesAt n := by
  induction n using Nat.strongRecOn with
  | ind n ih =>
      -- Not by one level at a time: where a shorthand takes its place, a definition of level `n`
      -- has a body of level `n - 2`.
      have hexpr : ∀ ts e, DerivesExpr n ts e →
          Carries n (ts.map Token.lexeme) fun m ys => SpellsExpr m ys e :=
        fun _ _ => CarriesAt.expr_of_lt ih
      refine ⟨fun {ts e} => hexpr ts e, fun {ts b} hb => ?_⟩
      cases hb with
      | mk hdefs hexprs =>
          rw [List.map_append]
          refine ((CarriesAt.definitions ih hdefs).append (CarriesAt.exprs hexpr hexprs)).mono ?_
          rintro m zs - ⟨ys, ws, rfl, hy, hw⟩
          exact hy.body hw

/-- What is derived from tokens is spelled by their lexemes when these are respelled. -/
theorem DerivesBody.spells_of_respelled (hb : DerivesBody n ts b)
    (h : Respelled (ts.map Token.lexeme) ys) : SpellsBody (2 * n) ys b := by
  have hfollows : Follows [] (ts.map Token.lexeme ++ []) ys := by
    simpa using h.follows .nil
  obtain ⟨ys, rest, rfl, hrest, hspells⟩ := (carriesAt n).body hb _ _ _ hfollows
  have hspells := hspells (2 * n) (Nat.le_refl _)
  cases hrest with
  | nil => rwa [List.append_nil]

/-! ## Acceptance -/

namespace Body

variable {limit : Int} {src : Source} {p : Program}

/-- **The two spellings of a procedure definition are interchangeable.** If tokens are a program
without findings and some of the procedure definitions in them, at any depth, are spelled in the
other way, the tokens that this gives are a program without findings as well, and it says the same,
in every source and wherever the tokens stand, if as many levels are allowed as there are tokens. -/
theorem ofTokens_respelled (hts : ofTokens limit src ts = .ok (p, []))
    (h : Respelled (ts.map Token.lexeme) (us.map Token.lexeme)) (limit' : Int) (src' : Source)
    (hlimit : us.length ≤ limit') :
    ∃ q, ofTokens limit' src' us = .ok (q, []) ∧ p.same q = true := by
  obtain ⟨q, hq, hsame⟩ := (derives_of_ofTokens hts).spells_of_respelled h us rfl
  exact ⟨q, ofTokens_of_derives hq limit' src' hlimit, hsame⟩

/-- A procedure with a local one: the shorthand is written out, and the one inside it is not. -/
theorem ofTokens_respelled_nested :
    ∃ ts us p,
      ts.map Token.lexeme = shorthand "f" ["x"]
        (longhand "g" [] (names ["x"]) ++ bracketed (names ["g"])) ++ names ["f"] ∧
      us.map Token.lexeme = longhand "f" ["x"]
        (shorthand "g" [] (names ["x"]) ++ bracketed (names ["g"])) ++ names ["f"] ∧
      ofTokens 3 ⟨"a.scm", []⟩ ts = .ok (p, []) ∧
      Respelled (ts.map Token.lexeme) (us.map Token.lexeme) ∧ us.length ≤ (30 : Int) ∧
      ∃ q, ofTokens 30 ⟨"b.scm", []⟩ us = .ok (q, []) ∧ p.same q = true := by
  have hput : ∀ xs : List Lexeme,
      (xs.map fun l => (⟨l, .point "" 0⟩ : Token)).map Token.lexeme = xs := by
    simp [Function.comp_def]
  have hleaf : ∀ name, Respelled (names [name]) (names [name]) :=
    fun name => .leaf _ (by simp) (by simp) .nil
  have hinside : Respelled (longhand "g" [] (names ["x"]) ++ bracketed (names ["g"]))
      (shorthand "g" [] (names ["x"]) ++ bracketed (names ["g"])) :=
    .fold "g" [] (hleaf "x") (.form (hleaf "g") .nil)
  have hall := Respelled.unfold "f" ["x"] hinside (hleaf "f")
  rw [← hput (shorthand _ _ _ ++ _), ← hput (longhand "f" _ _ ++ _)] at hall
  have haccepted : (ofTokens 3 ⟨"a.scm", []⟩ ((shorthand "f" ["x"]
      (longhand "g" [] (names ["x"]) ++ bracketed (names ["g"])) ++ names ["f"]).map
        fun l => ⟨l, .point "" 0⟩)).toOption.map Prod.snd = some [] := by
    decide +kernel
  generalize hparsed : ofTokens 3 _ _ = parsed at haccepted
  obtain _ | ⟨p, notes⟩ := parsed
  · cases haccepted
  · obtain rfl : notes = [] := Option.some.inj haccepted
    exact ⟨_, _, p, hput _, hput _, hparsed, hall, by decide,
      ofTokens_respelled hparsed hall 30 ⟨"b.scm", []⟩ (by decide)⟩

end Body

end SchemeFront
