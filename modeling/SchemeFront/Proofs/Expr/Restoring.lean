import SchemeFront.Proofs.Expr.Labels

set_option autoImplicit false

/-! # Programs from their outlines

The labels of the rows and their levels say everything about a program but where it stands
(`Body.same_of_marks`): the rows of a part are those up to the next one that is not at a higher
level, so what follows can be anything that begins at the level of the part or below it.
-/

namespace SchemeFront

/-- The level of a row, and its label. -/
def Row.mark (r : Nat × Row) : Nat × Label := (r.1, r.2.label)

/-- A label of an expression. -/
def Label.OfExpr : Label → Prop
  | atom _ | call | procedure _ | conditional _ | assignment | error => True
  | _ => False

/-- What follows begins below the level, or at the level with a label that has not the property
`K`. -/
def Row.Ends (level : Nat) (K : Label → Prop) (ms : List (Nat × Label)) : Prop :=
  ∀ m ∈ ms.head?, m.1 ≤ level ∧ (m.1 = level → ¬ K m.2)

/-- What follows begins at the level or below it. -/
def Row.Stops (level : Nat) (ms : List (Nat × Label)) : Prop := Row.Ends level (fun _ => False) ms

variable {level : Nat} {K : Label → Prop} {rest rest' : List (Nat × Label)}

theorem Row.ends_cons {l : Label} (h : ¬ K l) (ms : List (Nat × Label)) :
    Row.Ends level K ((level, l) :: ms) := by
  rintro _ ⟨⟩
  exact ⟨Nat.le_refl level, fun _ => h⟩

theorem Row.Ends.stops (h : Row.Ends level K rest) : Row.Stops level rest :=
  fun m hm => ⟨(h m hm).1, fun _ => id⟩

/-- What ends a part ends what is inside it, where the level is higher. -/
theorem Row.Stops.ends (h : Row.Stops level rest) : Row.Ends (level + 1) K rest := by
  intro m hm
  have hle := (h m hm).1
  exact ⟨by omega, by omega⟩

theorem Row.Stops.succ (h : Row.Stops level rest) : Row.Stops (level + 1) rest := h.ends

/-- The rows of an expression begin with its own. -/
theorem Expr.exists_rows_eq_cons (level : Nat) (e : Expr) :
    ∃ more, (e.rows level).map Row.mark = (level, (Node.expr e).label) :: more := by
  cases e with
  | conditional s test conseq alter => cases alter <;> exact ⟨_, rfl⟩
  | _ => exact ⟨_, rfl⟩

theorem Node.ofExpr_label (e : Expr) : (Node.expr e).label.OfExpr := by
  cases e <;> trivial

theorem Expr.label_eq {e f : Expr}
    (h : (e.rows level).map Row.mark ++ rest = (f.rows level).map Row.mark ++ rest') :
    (Node.expr e).label = (Node.expr f).label := by
  obtain ⟨more, he⟩ := e.exists_rows_eq_cons level
  obtain ⟨more', hf⟩ := f.exists_rows_eq_cons level
  rw [he, hf] at h
  exact (Prod.mk.inj (List.cons.inj h).1).2

/-- The rows of a body begin with one of their own. -/
theorem Body.exists_rows_eq_cons (level : Nat) (b : Body) :
    ∃ more, (b.rows level).map Row.mark = (level, Label.body) :: more := by
  obtain ⟨ds, es, e⟩ := b
  exact ⟨_, rfl⟩

theorem Expr.stops_rows (e : Expr) : Row.Stops level ((e.rows level).map Row.mark ++ rest) := by
  obtain ⟨more, he⟩ := e.exists_rows_eq_cons level
  rw [he]
  exact Row.ends_cons (K := fun _ => False) id _

/-- Expressions end what no expression can begin. -/
theorem Expr.ends_rowsAll (es : List Expr) (hK : ∀ l, K l → ¬ l.OfExpr)
    (h : Row.Ends level K rest) :
    Row.Ends level K ((Expr.rowsAll level es).map Row.mark ++ rest) := by
  cases es with
  | nil => exact h
  | cons e es =>
      obtain ⟨more, he⟩ := e.exists_rows_eq_cons level
      rw [rowsAll, List.map_append, he]
      exact Row.ends_cons (fun hk => hK _ hk (Node.ofExpr_label e)) _

theorem Expr.not_ends_rowsAll (e : Expr) (es : List Expr) :
    ¬ Row.Ends level Label.OfExpr ((Expr.rowsAll level (e :: es)).map Row.mark ++ rest) := by
  obtain ⟨more, he⟩ := e.exists_rows_eq_cons level
  rw [rowsAll, List.map_append, he]
  exact fun h => (h _ rfl).2 rfl (Node.ofExpr_label e)

theorem Definition.not_ends_rowsAll (d : Definition) (ds : List Definition) :
    ¬ Row.Ends level (· = .definition)
      ((Definition.rowsAll level (d :: ds)).map Row.mark ++ rest) := by
  obtain ⟨s, name, value⟩ := d
  exact fun h => (h _ rfl).2 rfl rfl

theorem Definition.stops_rowsAll (ds : List Definition) (h : Row.Stops level rest) :
    Row.Stops level ((Definition.rowsAll level ds).map Row.mark ++ rest) := by
  cases ds with
  | nil => exact h
  | cons d ds =>
      obtain ⟨s, name, value⟩ := d
      exact Row.ends_cons (K := fun _ => False) id _

/-- Parameters end where the body begins. -/
theorem Identifier.sameAll_of_marks {is js : List Identifier}
    (h : (is.map fun i => (level, Label.identifier i.name)) ++ (level, Label.body) :: rest =
      (js.map fun j => (level, Label.identifier j.name)) ++ (level, Label.body) :: rest') :
    Identifier.sameAll is js = true ∧ rest = rest' := by
  induction is generalizing js with
  | nil =>
      cases js with
      | nil => simpa [sameAll] using h
      | cons j js => simp at h
  | cons i is ih =>
      cases js with
      | nil => simp at h
      | cons j js =>
          simp only [List.map_cons, List.cons_append, List.cons.injEq, Prod.mk.injEq, true_and,
            Label.identifier.injEq] at h
          obtain ⟨hname, hmore⟩ := h
          obtain ⟨hsame, hrest⟩ := ih hmore
          exact ⟨by simpa [sameAll, hname] using hsame, hrest⟩

/-- The first row of a body is no parameter, so the bodies behind the parameters can be told. -/
theorem Body.marks_behind_parameters {is js : List Identifier} {b c : Body}
    (h : (is.map fun i => (level, Label.identifier i.name)) ++
        ((b.rows level).map Row.mark ++ rest) =
      (js.map fun j => (level, Label.identifier j.name)) ++
        ((c.rows level).map Row.mark ++ rest')) :
    Identifier.sameAll is js = true ∧
      (b.rows level).map Row.mark ++ rest = (c.rows level).map Row.mark ++ rest' := by
  obtain ⟨ms, hms⟩ := b.exists_rows_eq_cons level
  obtain ⟨ms', hms'⟩ := c.exists_rows_eq_cons level
  rw [hms, hms', List.cons_append, List.cons_append] at h ⊢
  obtain ⟨hsame, hmore⟩ := Identifier.sameAll_of_marks h
  exact ⟨hsame, by rw [hmore]⟩

mutual

/-- The rows of an expression, with whatever comes behind them, say all about the expression. -/
theorem Expr.same_of_marks (e f : Expr) (level : Nat) (rest rest' : List (Nat × Label))
    (h : (e.rows level).map Row.mark ++ rest = (f.rows level).map Row.mark ++ rest')
    (hrest : Row.Stops level rest) (hrest' : Row.Stops level rest') :
    Expr.same e f = true ∧ rest = rest' := by
  -- The trees are taken apart together: equal labels leave two expressions of one kind.
  have hlabel := Expr.label_eq h
  match e with
  | .call s g as =>
      cases f with
      | call s' g' as' =>
          simp only [Expr.rows, List.map_cons, List.map_append, List.cons_append,
            List.append_assoc, List.cons.injEq] at h
          -- The operator ends where an argument begins at its level, or with the call.
          obtain ⟨hg, hargs⟩ := Expr.same_of_marks g g' (level + 1) _ _ h.2
            (Expr.ends_rowsAll as (by simp) hrest.succ)
            (Expr.ends_rowsAll as' (by simp) hrest'.succ)
          obtain ⟨has, hmore⟩ := Expr.sameAll_of_marks as as' (level + 1) _ _ hargs
            hrest.ends hrest'.ends
          exact ⟨by simp [Expr.same, hg, has], hmore⟩
      | _ => cases hlabel
  | .atom s a =>
      cases f with
      | atom s' a' =>
          cases hlabel
          exact ⟨by simp [Expr.same], (List.cons.inj h).2⟩
      | _ => cases hlabel
  | .procedure s v params body =>
      cases f with
      | procedure s' v' params' body' =>
          cases hlabel
          simp only [Expr.rows, List.map_cons, List.map_append, List.map_map, List.cons_append,
            List.append_assoc, List.cons.injEq] at h
          obtain ⟨hparams, hbody⟩ := Body.marks_behind_parameters h.2
          obtain ⟨hsame, hmore⟩ := Body.same_of_marks body body' (level + 1) _ _ hbody hrest.succ
            hrest'.succ
          exact ⟨by simp [Expr.same, hparams, hsame], hmore⟩
      | _ => cases hlabel
  | .conditional s t c a =>
      cases f with
      | conditional s' t' c' a' =>
          cases a with
          | none =>
              cases a' with
              | some b' => cases hlabel
              | none =>
                  simp only [Expr.rows, List.map_cons, List.map_append, List.cons_append,
                    List.append_assoc, List.cons.injEq] at h
                  obtain ⟨ht, hc⟩ := Expr.same_of_marks t t' (level + 1) _ _ h.2 c.stops_rows
                    c'.stops_rows
                  obtain ⟨hc, hmore⟩ := Expr.same_of_marks c c' (level + 1) _ _ hc hrest.succ
                    hrest'.succ
                  exact ⟨by simp [Expr.same, Expr.sameOption, ht, hc], hmore⟩
          | some b =>
              cases a' with
              | none => cases hlabel
              | some b' =>
                  simp only [Expr.rows, List.map_cons, List.map_append, List.cons_append,
                    List.append_assoc, List.cons.injEq] at h
                  obtain ⟨ht, hc⟩ := Expr.same_of_marks t t' (level + 1) _ _ h.2 c.stops_rows
                    c'.stops_rows
                  obtain ⟨hc, hb⟩ := Expr.same_of_marks c c' (level + 1) _ _ hc b.stops_rows
                    b'.stops_rows
                  obtain ⟨hb, hmore⟩ := Expr.same_of_marks b b' (level + 1) _ _ hb hrest.succ
                    hrest'.succ
                  exact ⟨by simp [Expr.same, Expr.sameOption, ht, hc, hb], hmore⟩
      | _ => cases hlabel
  | .assignment s i e =>
      cases f with
      | assignment s' i' e' =>
          simp only [Expr.rows, List.map_cons, List.cons_append, List.cons.injEq] at h
          obtain ⟨-, hname, hvalue⟩ := h
          obtain ⟨he, hmore⟩ := Expr.same_of_marks e e' (level + 1) _ _ hvalue
            hrest.succ hrest'.succ
          have hname : i.name = i'.name := by simpa [Row.mark, Row.label, Node.label] using hname
          exact ⟨by simp [Expr.same, Identifier.same, hname, he], hmore⟩
      | _ => cases hlabel
  | .error s =>
      cases f with
      | error s' => exact ⟨by simp [Expr.same], (List.cons.inj h).2⟩
      | _ => cases hlabel

/-- Expressions end where something else begins, or a lower level. -/
theorem Expr.sameAll_of_marks (es fs : List Expr) (level : Nat) (rest rest' : List (Nat × Label))
    (h : (Expr.rowsAll level es).map Row.mark ++ rest =
      (Expr.rowsAll level fs).map Row.mark ++ rest')
    (hrest : Row.Ends level Label.OfExpr rest) (hrest' : Row.Ends level Label.OfExpr rest') :
    Expr.sameAll es fs = true ∧ rest = rest' := by
  match es with
  | [] =>
      cases fs with
      | nil => exact ⟨by simp [Expr.sameAll], h⟩
      | cons f fs => exact absurd ((show rest = _ from h) ▸ hrest) (Expr.not_ends_rowsAll f fs)
  | e :: es =>
      cases fs with
      | nil => exact absurd ((show _ = rest' from h) ▸ hrest') (Expr.not_ends_rowsAll e es)
      | cons f fs =>
          simp only [Expr.rowsAll, List.map_append, List.append_assoc] at h
          obtain ⟨he, hes⟩ := Expr.same_of_marks e f level _ _ h
            (Expr.ends_rowsAll es (by simp) hrest.stops)
            (Expr.ends_rowsAll fs (by simp) hrest'.stops)
          obtain ⟨hsame, hmore⟩ := Expr.sameAll_of_marks es fs level _ _ hes hrest hrest'
          exact ⟨by simp [Expr.sameAll, he, hsame], hmore⟩

theorem Definition.same_of_marks (d c : Definition) (level : Nat) (rest rest' : List (Nat × Label))
    (h : (d.rows level).map Row.mark ++ rest = (c.rows level).map Row.mark ++ rest')
    (hrest : Row.Stops level rest) (hrest' : Row.Stops level rest') :
    Definition.same d c = true ∧ rest = rest' := by
  match d, c with
  | ⟨s, i, e⟩, ⟨s', i', e'⟩ =>
      simp only [Definition.rows, List.map_cons, List.cons_append, List.cons.injEq] at h
      obtain ⟨-, hname, hvalue⟩ := h
      obtain ⟨he, hmore⟩ := Expr.same_of_marks e e' (level + 1) _ _ hvalue hrest.succ hrest'.succ
      have hname : i.name = i'.name := by simpa [Row.mark, Row.label, Node.label] using hname
      exact ⟨by simp [Definition.same, Identifier.same, hname, he], hmore⟩

theorem Definition.sameAll_of_marks (ds cs : List Definition) (level : Nat)
    (rest rest' : List (Nat × Label))
    (h : (Definition.rowsAll level ds).map Row.mark ++ rest =
      (Definition.rowsAll level cs).map Row.mark ++ rest')
    (hrest : Row.Ends level (· = .definition) rest)
    (hrest' : Row.Ends level (· = .definition) rest') :
    Definition.sameAll ds cs = true ∧ rest = rest' := by
  match ds with
  | [] =>
      cases cs with
      | nil => exact ⟨by simp [Definition.sameAll], h⟩
      | cons c cs =>
          exact absurd ((show rest = _ from h) ▸ hrest) (Definition.not_ends_rowsAll c cs)
  | d :: ds =>
      cases cs with
      | nil => exact absurd ((show _ = rest' from h) ▸ hrest') (Definition.not_ends_rowsAll d ds)
      | cons c cs =>
          simp only [Definition.rowsAll, List.map_append, List.append_assoc] at h
          obtain ⟨hd, hds⟩ := Definition.same_of_marks d c level _ _ h
            (Definition.stops_rowsAll ds hrest.stops) (Definition.stops_rowsAll cs hrest'.stops)
          obtain ⟨hsame, hmore⟩ := Definition.sameAll_of_marks ds cs level _ _ hds hrest hrest'
          exact ⟨by simp [Definition.sameAll, hd, hsame], hmore⟩

/-- **The rows of a body say all about the body.** -/
theorem Body.same_of_marks (b c : Body) (level : Nat) (rest rest' : List (Nat × Label))
    (h : (b.rows level).map Row.mark ++ rest = (c.rows level).map Row.mark ++ rest')
    (hrest : Row.Stops level rest) (hrest' : Row.Stops level rest') :
    Body.same b c = true ∧ rest = rest' := by
  match b, c with
  | ⟨ds, es, e⟩, ⟨ds', es', e'⟩ =>
      simp only [Body.rows, List.map_cons, List.map_append, List.cons_append, List.append_assoc,
        List.cons.injEq] at h
      -- The row in front of the tail expression ends the expressions, and they the definitions.
      have htail : ¬ Label.OfExpr .tail := id
      have hend : ∀ more,
          Row.Ends (level + 1) (· = .definition) ((level + 1, Label.tail) :: more) :=
        Row.ends_cons (K := (· = .definition)) nofun
      obtain ⟨hds, hinit⟩ := Definition.sameAll_of_marks ds ds' (level + 1) _ _ h.2
        (Expr.ends_rowsAll es (by rintro _ rfl; exact id) (hend _))
        (Expr.ends_rowsAll es' (by rintro _ rfl; exact id) (hend _))
      obtain ⟨hes, hlast⟩ := Expr.sameAll_of_marks es es' (level + 1) _ _ hinit
        (Row.ends_cons htail _) (Row.ends_cons htail _)
      obtain ⟨he, hmore⟩ := Expr.same_of_marks e e' (level + 2) _ _ (List.cons.inj hlast).2
        hrest.succ.succ hrest'.succ.succ
      exact ⟨by simp [Body.same, hds, hes, he], hmore⟩

end

end SchemeFront
