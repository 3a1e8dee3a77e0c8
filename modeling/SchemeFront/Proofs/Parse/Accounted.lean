import SchemeFront.Proofs.Parse.Accounting
import SchemeFront.Proofs.Parse.Units

set_option autoImplicit false

/-! # Programs set against findings

Where single entries of a ledger are right, so are those for whole programs: whatever the tokens
are, the nodes of the program are set against all findings (`Body.exists_ofTokens_of_ledger`). A
form that cannot be parsed is entered as an error, for which all nodes inside it are dropped; what
was found about them stays in the ledger.
-/

namespace SchemeFront

open Token

variable {α β : Type} {ctx : Context} {pos : Position} {C H T : Position → Prop}
  {A : List Node → List Diagnostic → Prop} {P : Lexeme → Prop} {Q : α → Prop} {n : Nat}
  {t o : Token} {ts us : List Token} {D E : α → List Diagnostic → Position → Prop}

/-! ## Forms -/

/-- The node of what was parsed, an error where a form could not be. -/
def Parsed.node (f : α → Node) : Parsed α → Node
  | whole a => f a
  | broken s => .expr (.error s)

/-- Once the innermost form is left. -/
theorem Reply.Accounts.leaving {r : Reply α} {counted : Bool}
    (h : r.Accounts A ctx (pos.enter counted ts) D) (hts : ts <:+ pos.rest)
    (hE : ∀ a ms us, D a ms ((pos.enter counted ts).moveTo us) → E a ms (pos.moveTo us)) :
    (r.leaving counted).Accounts A ctx pos E := by
  cases r with
  | done a trace after =>
      obtain ⟨⟨us, hus, rfl⟩, ha⟩ := h
      refine ⟨⟨us, hus.trans hts, by simp⟩, ?_⟩
      rw [Position.leave_moveTo_enter, Trace.notes_append, Trace.notes_ofPosition, List.append_nil]
      exact hE a _ us ha
  | failed why trace after =>
      obtain ⟨⟨us, hus, rfl, hwhy⟩, hnotes⟩ := h
      refine ⟨⟨us, hus.trans hts, by simp, hwhy.mono (seen_subset hts hus)⟩, ?_⟩
      rwa [Trace.notes_append, Trace.notes_ofPosition, List.append_nil]
  | fault f trace after => trivial

namespace Parse

variable {construct : String} {counted : Bool} {f : α → Node}

/-- A form that could not be parsed is entered as an error, wherever inside it one has come to. -/
theorem accounts_recover {ms : List Diagnostic} {m : Diagnostic} (hasc : Ascending pos.rest)
    (hrest : pos.rest = o :: ts) (ho : o.opens = true) (hreach : Reaches 0 ts us)
    (herror : ∀ s, cover (pos.rest.take (extent pos.rest)) ctx.endOfInput = .ok s →
      A [.expr (.error s)] (ms ++ [m])) :
    (recover pos.rest m ctx ((pos.enter counted ts).moveTo us)).Accounts A ctx
      (pos.enter counted ts)
      fun p ns q => q.rest = pos.rest.drop (extent pos.rest) ∧ A [p.node f] (ms ++ ns) := by
  have hle : pos.rest.length - us.length ≤ extent pos.rest := by
    rw [hrest]
    exact length_sub_le_extent ho hreach
  have hbehind : pos.rest.drop (extent pos.rest) <:+ ts := by
    rw [hrest, extent, Nat.add_comm, List.drop_succ_cons]
    exact List.drop_suffix _ ts
  obtain ⟨s, hs⟩ := hasc.spanned pos.rest (List.suffix_refl _) ctx.endOfInput
  rw [recover_eq_of_cover ctx ((pos.enter counted ts).moveTo us) hs hle]
  exact ⟨⟨_, hbehind, rfl⟩, rfl, herror s hs⟩

/-- What is inside a form is entered as its node, or else the form as an error. -/
theorem accounts_guarded (L : Ledger ctx C A) {inner : Parse α} (hasc : Ascending pos.rest)
    (hrest : pos.rest = o :: ts) (ho : o.opens = true)
    (hbroken : ∀ why s, Blames ctx (pos.rest.take (extent pos.rest)) why →
      cover (pos.rest.take (extent pos.rest)) ctx.endOfInput = .ok s →
      A [.expr (.error s)] [explain o construct why])
    (hclosing : (inner ctx (pos.enter counted ts)).Closing P (pos.enter counted ts) Q)
    (hinner : (inner ctx (pos.enter counted ts)).Accounts A ctx (pos.enter counted ts)
      fun a ms _ => A [f a] ms) :
    (guarded construct pos o inner ctx (pos.enter counted ts)).Accounts A ctx
      (pos.enter counted ts)
      fun p ms q => q.rest = pos.rest.drop (extent pos.rest) ∧ A [p.node f] ms := by
  unfold guarded
  cases hr : inner ctx (pos.enter counted ts) with
  | done a trace after =>
      rw [hr] at hclosing hinner
      obtain ⟨c, us, rfl, hc, hpass, -⟩ := hclosing
      refine ⟨hinner.1, ?_, hinner.2⟩
      rw [hrest]
      exact (drop_extent_of_passes ho hc hpass).symm
  | failed why trace after =>
      rw [hr] at hclosing hinner
      dsimp only
      split
      · -- The form around has to account for the end of the input.
        exact hinner
      · obtain ⟨⟨us, hus, rfl, hwhy⟩, hnotes⟩ := hinner
        obtain ⟨us', hsame, hreach, -⟩ := hclosing
        obtain rfl : us = us' := congrArg Position.rest hsame
        have hform : seen ts us ⊆ pos.rest.take (extent pos.rest) := by
          rw [hrest]
          exact seen_subset_form ho hreach
        exact .behind hnotes L.append_nil (accounts_recover hasc hrest ho hreach fun s hs =>
          L.append hnotes (hbroken why s (hwhy.mono hform) hs))
  | fault f trace after => trivial

variable (L : Ledger ctx C A) (R : Route ctx C H T)

include L R

/-- A form: entered as its node, or as an error if it is nested too deeply or could not be
parsed. -/
theorem accounts_form {inner : Token → Parse α} (hC : C pos) (hasc : Ascending pos.rest)
    (hrest : pos.rest = o :: ts) (ho : o.opens = true)
    (hclosing : ∀ counted,
      (inner o ctx (pos.enter counted ts)).Closing P (pos.enter counted ts) Q)
    (hinner : ∀ counted, H (pos.enter counted ts) →
      (inner o ctx (pos.enter counted ts)).Accounts A ctx (pos.enter counted ts)
        fun a ms _ => A [f a] ms) :
    (form construct inner ctx pos).Accounts A ctx pos (Enters A C fun p => [p.node f]) := by
  have hbehind := R.form _ _ _ (R.formals _ hC) hrest ho
  obtain ⟨s, hs⟩ := hasc.spanned pos.rest (List.suffix_refl _) ctx.endOfInput
  unfold form
  rw [hrest]
  dsimp only
  split
  · rename_i hdeep
    rw [← hrest, recover_eq_of_cover ctx pos hs (by simp)]
    exact ⟨⟨_, List.drop_suffix _ _, rfl⟩, hbehind,
      L.refused _ _ _ _ _ hC hrest ho hdeep hs⟩
  · rename_i hdeep
    have hH := R.enter _ _ _ hC hrest ho (Bool.eq_false_iff.2 hdeep)
    refine Reply.Accounts.leaving (Reply.Accounts.behind L.nil L.append_nil ?_)
      (hrest ▸ List.suffix_cons o ts) ?_ (D := fun p ms q =>
        q.rest = pos.rest.drop (extent pos.rest) ∧ A [p.node f] ms)
    · exact accounts_guarded L hasc hrest ho
        (fun why s => L.broken _ _ _ _ why s hC hrest ho) (hclosing _) (hinner _ hH)
    · rintro p ms us ⟨hus, hp⟩
      rw [Position.moveTo_rest] at hus
      exact ⟨hus ▸ hbehind, hp⟩

end Parse

/-! ## Inside forms -/

/-- The parsers for what is inside brackets keep the ledger where fewer than `n` tokens are left. -/
structure Inner.Accounts (A : List Node → List Diagnostic → Prop) (ctx : Context)
    (C : Position → Prop) (n : Nat) (inner : Inner) : Prop where
  tidy : inner.Tidy (fun _ => True) ctx n
  expr : ∀ also pos, C pos → Supply (fun _ => True) n pos.rest →
    (inner.expr also ctx pos).Accounts A ctx pos (Parse.Enters A C fun e => [.expr e])
  body : ∀ pos, C pos → Supply (fun _ => True) n pos.rest →
    (inner.body ctx pos).Accounts A ctx pos (Parse.Enters A C Body.children)

namespace Parse

variable {inner : Inner}

section

variable (L : Ledger ctx C A)

include L

theorem accounts_alternative (h : inner.Accounts A ctx C n) (hC : C pos)
    (hs : Supply (fun _ => True) n pos.rest) :
    (alternative inner ctx pos).Accounts A ctx pos
      (Enters A C fun e? => e?.toList.map .expr) := by
  rw [alternative, nextCloses_bind_apply]
  split
  · exact accounts_pure ⟨hC, L.nil⟩
  · exact accounts_map (h.expr _ pos hC hs)

theorem accounts_arguments (h : inner.Accounts A ctx C n) (hC : C pos)
    (hs : Supply (fun _ => True) n pos.rest) (rounds : Nat) :
    (arguments inner rounds ctx pos).Accounts A ctx pos (Enters A C fun es => es.map .expr) := by
  induction rounds generalizing pos with
  | zero => trivial
  | succ rounds ih =>
      rw [arguments, nextCloses_bind_apply]
      split
      · exact accounts_pure ⟨hC, L.nil⟩
      · refine accounts_bind L (h.expr _ pos hC hs) L.discard_enters ?_
        rintro e ms us hus ⟨hC, he⟩
        refine accounts_bind L (ih hC (hs.of_suffix hus)) L.discard_enters ?_
        rintro es ns vs - ⟨hC, hes⟩
        refine accounts_pure ⟨hC, ?_⟩
        rw [List.append_nil]
        exact L.append he hes

theorem accounts_call (h : inner.Accounts A ctx C n) (hC : C pos)
    (hs : Supply (fun _ => True) n pos.rest) :
    (call inner o ctx pos).Accounts A ctx pos fun e ms _ => A [.expr e] ms := by
  rw [call]
  refine accounts_bind L (h.expr [] pos hC hs) L.discard_enters ?_
  rintro operator ms us hus ⟨hC, hoperator⟩
  refine accounts_bind L (accounts_withRounds (accounts_arguments L h hC (hs.of_suffix hus)))
    L.discard_enters ?_
  rintro args ns vs - ⟨-, hargs⟩
  refine accounts_closed L fun c _ => L.node rfl ?_
  rw [List.append_nil]
  exact L.append hoperator hargs

end

variable (L : Ledger ctx C A) (R : Route ctx C H T)

include L R

omit L in
/-- The word that begins a form is read. -/
theorem accounts_word_bind {k : Keyword} {g : Token → Parse α} (hC : C pos)
    (hhead : pos.rest[0]?.map Token.lexeme = some (.keyword k)) (ho : k ≠ .opening)
    (hc : k ≠ .closing)
    (hg : ∀ t us, us <:+ pos.rest → C (pos.moveTo us) →
      (g t ctx (pos.moveTo us)).Accounts A ctx (pos.moveTo us) E) :
    ((advance >>= g) ctx pos).Accounts A ctx pos E := by
  obtain ⟨t, ts, hrest, ht⟩ := exists_of_head hhead
  have hplain := not_bracket_of_keyword ht ho hc
  exact accounts_advance_bind hrest (hg t ts (hrest ▸ List.suffix_cons t ts)
    (R.plain _ _ _ (R.formals _ hC) hrest hplain.1 hplain.2))

theorem accounts_conditional (h : inner.Accounts A ctx C n) (hC : C pos)
    (hs : Supply (fun _ => True) n pos.rest)
    (hhead : pos.rest[0]?.map Token.lexeme = some (.keyword .conditional)) :
    (conditional inner o ctx pos).Accounts A ctx pos fun e ms _ => A [.expr e] ms := by
  rw [conditional]
  refine accounts_word_bind R hC hhead (by decide) (by decide) ?_
  intro _ us hus hC
  have hs := hs.of_suffix hus
  refine accounts_bind L (h.expr [] (pos.moveTo us) hC hs) L.discard_enters ?_
  rintro test ms₁ vs hvs ⟨hC, htest⟩
  have hs := hs.of_suffix hvs
  refine accounts_bind L (h.expr [] (pos.moveTo vs) hC hs) L.discard_enters ?_
  rintro conseq ms₂ ws hws ⟨hC, hconseq⟩
  have hs := hs.of_suffix hws
  refine accounts_bind L (accounts_alternative L h hC hs) L.discard_enters ?_
  rintro alter ms₃ _ - ⟨-, halter⟩
  refine accounts_closed L fun c _ => L.node rfl ?_
  rw [List.append_nil]
  have hchildren := L.append htest (L.append hconseq halter)
  cases alter <;> exact hchildren

theorem accounts_procedure (h : inner.Accounts A ctx C n) (hH : H pos)
    (hs : Supply (fun _ => True) n pos.rest)
    (hhead : pos.rest[0]?.map Token.lexeme = some (.keyword .lambda)) :
    (procedure inner o ctx pos).Accounts A ctx pos fun e ms _ => A [.expr e] ms := by
  obtain ⟨word, us, hrest, hword⟩ := exists_of_head hhead
  have hus : us <:+ pos.rest := hrest ▸ List.suffix_cons word us
  rw [procedure]
  refine accounts_advance_bind hrest ?_
  refine accounts_bind L (accounts_formals L R (R.word _ _ _ hH hrest hword)) L.discard_enters ?_
  rintro ⟨variadic, params⟩ ms vs hvs ⟨hC, hparams⟩
  have hs := (hs.of_suffix hus).of_suffix hvs
  refine accounts_bind L (h.body (pos.moveTo vs) hC hs) L.discard_enters ?_
  rintro body ns _ - ⟨-, hbody⟩
  refine accounts_closed L fun c _ => L.node rfl ?_
  rw [List.append_nil]
  exact L.append hparams hbody

theorem accounts_assignment (h : inner.Accounts A ctx C n) (hC : C pos)
    (hs : Supply (fun _ => True) n pos.rest)
    (hhead : pos.rest[0]?.map Token.lexeme = some (.keyword .assign)) :
    (assignment inner o ctx pos).Accounts A ctx pos fun e ms _ => A [.expr e] ms := by
  rw [assignment]
  refine accounts_word_bind R hC hhead (by decide) (by decide) ?_
  intro _ us hus hC
  have hs := hs.of_suffix hus
  refine accounts_bind L (accounts_name L R (R.formals _ hC) _) L.discard_enters ?_
  rintro target ms vs hvs ⟨hC, htarget⟩
  have hs := hs.of_suffix hvs
  refine accounts_bind L (h.expr [] (pos.moveTo vs) hC hs) L.discard_enters ?_
  rintro value ns _ - ⟨-, hvalue⟩
  refine accounts_closed L fun c _ => L.node rfl ?_
  rw [List.append_nil]
  exact L.append htarget hvalue

omit R in
/-- A definition in the place of an expression is blamed on its word. -/
theorem accounts_strayDefinition :
    (strayDefinition o ctx pos).Accounts A ctx pos fun e ms _ => A [.expr e] ms := by
  rw [strayDefinition, peek_bind_apply]
  cases hrest : pos.rest with
  | nil => trivial
  | cons word ts =>
      have hseen : word ∈ seen pos.rest pos.rest := by
        rw [hrest]
        exact mem_seen (List.suffix_refl _) (List.suffix_refl _)
      exact ⟨⟨pos.rest, List.suffix_refl _, rfl, .misplaced hseen⟩, L.nil⟩

/-- Whatever follows the bracket, the form is entered as its node. -/
theorem accounts_formOf (pos : Position) (h : inner.Accounts A ctx C n) (hH : H pos)
    (hs : Supply (fun _ => True) n pos.rest) :
    ((formOf inner pos.rest[0]?).2 o ctx pos).Accounts A ctx pos
      fun e ms _ => A [.expr e] ms := by
  unfold formOf
  split
  · rename_i hhead
    exact accounts_conditional L R h (R.inside _ hH (by simp [hhead])) hs hhead
  · rename_i hhead
    exact accounts_procedure L R h hH hs hhead
  · rename_i hhead
    exact accounts_assignment L R h (R.inside _ hH (by simp [hhead])) hs hhead
  · show (strayDefinition o ctx pos).Accounts A ctx pos _
    exact accounts_strayDefinition L
  · rename_i hlambda _ _
    exact accounts_call L h (R.inside _ hH hlambda) hs

omit L R in
theorem expr_ofParsed (p : Parsed Expr) : Node.expr (ofParsed p) = p.node .expr := by
  cases p <;> rfl

theorem accounts_expression (h : inner.Accounts A ctx C n) (hC : C pos)
    (hs : Supply (fun _ => True) (n + 1) pos.rest) (also : List String) :
    (expression inner also ctx pos).Accounts A ctx pos (Enters A C fun e => [.expr e]) := by
  rw [expression, peek_bind_apply]
  cases hrest : pos.rest with
  | nil => exact accounts_fail L _
  | cons t ts =>
      obtain ⟨l, s⟩ := t
      cases l with
      | atom a =>
          have hbehind := R.plain _ _ _ (R.formals _ hC) hrest rfl rfl
          exact accounts_advance_bind hrest (accounts_pure ⟨hbehind, L.node rfl L.nil⟩)
      | keyword k =>
          cases k with
          | opening =>
              have hhead : pos.rest[1]? = ts[0]? := by simp [hrest]
              show (compound inner ctx pos).Accounts A ctx pos _
              rw [compound, peek_bind_apply, hhead]
              refine accounts_map ((accounts_form L R hC hs.ascending hrest rfl
                (fun counted => closing_formOf (pos.enter counted ts) h.tidy (hs.tail hrest))
                fun counted hH => accounts_formOf L R (pos.enter counted ts) h hH
                  (hs.tail hrest)).mono ?_)
              rintro p ms us - hp
              rwa [Enters, expr_ofParsed]
          | _ => exact accounts_fail L _

/-! ## Definitions -/

theorem accounts_namedValue (h : inner.Accounts A ctx C n) (hC : C pos)
    (hs : Supply (fun _ => True) n pos.rest) :
    (namedValue inner o ctx pos).Accounts A ctx pos fun d ms _ => A [.definition d] ms := by
  rw [namedValue]
  refine accounts_bind L (accounts_name L R (R.formals _ hC) _) L.discard_enters ?_
  rintro name ms us hus ⟨hC, hname⟩
  refine accounts_bind L (h.expr [] (pos.moveTo us) hC (hs.of_suffix hus)) L.discard_enters ?_
  rintro value ns _ - ⟨-, hvalue⟩
  refine accounts_closed L fun c _ => L.node rfl ?_
  rw [List.append_nil]
  exact L.append hname hvalue

/-- The header behind the word `define`, a body, and the procedure that they make. -/
theorem accounts_namedProcedure (h : inner.Accounts A ctx C n) (hC : C pos)
    (hs : Supply (fun _ => True) n pos.rest) (hrest : pos.rest = t :: ts) (ht : t.opens = true) :
    (namedProcedure inner o ctx pos).Accounts A ctx pos fun d ms _ => A [.definition d] ms := by
  rw [namedProcedure]
  refine accounts_advance_bind hrest ?_
  refine accounts_bind L (accounts_identifier L _) (fun _ _ _ h => h.1 ▸ L.nil) ?_
  rintro name ms us hus ⟨rfl, i, hi, hname, -⟩
  -- The name stands before the parameters, so the header is closed where they are.
  have hparams : (parameters ctx (pos.moveTo us)).Accounts A ctx (pos.moveTo us)
      (Enters A C fun is => is.map .identifier) := by
    refine (accounts_parameters L).mono ?_
    rintro is ms vs - ⟨rfl, names, c, hnames, hall, hc⟩
    have hheader : pos.rest = t :: (i :: names ++ c :: vs) := by
      rw [hrest, List.cons_append]
      exact congrArg (t :: ·) (hi.trans (congrArg (i :: ·) hnames))
    have hbehind := R.form _ _ _ (R.formals _ hC) hrest ht
    rw [hheader, drop_extent_of_names ht (by simpa [hname] using hall) hc] at hbehind
    exact ⟨hbehind, L.identifiers is⟩
  refine accounts_bind L hparams L.discard_enters ?_
  rintro params ms vs hvs ⟨hC, hparams⟩
  have hts : ts <:+ pos.rest := hrest ▸ List.suffix_cons t ts
  have hs := ((hs.of_suffix hts).of_suffix hus).of_suffix hvs
  refine accounts_bind L (h.body (pos.moveTo vs) hC hs) L.discard_enters ?_
  rintro body ns _ - ⟨-, hbody⟩
  refine accounts_closed L fun c _ => L.node rfl ?_
  rw [List.nil_append, List.append_nil]
  exact L.append (L.node (n := .identifier name) rfl L.nil)
    (L.node (n := .expr (.procedure _ _ _ _)) rfl (L.append hparams hbody))

/-- A definition is entered as its node. -/
theorem accounts_definition (h : inner.Accounts A ctx C n) (hC : C pos)
    (hs : Supply (fun _ => True) n pos.rest)
    (hhead : pos.rest[0]?.map Token.lexeme = some (.keyword .define)) :
    (definition inner o ctx pos).Accounts A ctx pos fun d ms _ => A [.definition d] ms := by
  rw [definition]
  refine accounts_word_bind R hC hhead (by decide) (by decide) ?_
  intro _ us hus hC
  have hs := hs.of_suffix hus
  rw [peek_bind_apply, Position.moveTo_rest]
  cases us with
  | nil => exact accounts_fail L _
  | cons t ts =>
      simp only [List.getElem?_cons_zero]
      split
      · exact accounts_namedValue L R h hC hs
      · split
        · rename_i ho
          exact accounts_namedProcedure L R h hC hs rfl ho
        · exact accounts_fail L _

end Parse

/-! ## Items -/

/-- The nodes that an item adds to a body. -/
def BodyItem.nodes (i? : Option BodyItem) : List Node := (i?.bind BodyItem.node?).toList

namespace Parse

variable {inner : Inner}

theorem node?_itemOfParsed (p : Parsed Definition) :
    (itemOfParsed p).node? = some (p.node .definition) := by
  cases p <;> rfl

section

variable (L : Ledger ctx C A) (R : Route ctx C H T)

include L R

theorem accounts_item (h : inner.Accounts A ctx C n) (hC : C pos)
    (hs : Supply (fun _ => True) (n + 1) pos.rest) {expr : Parse Expr}
    (hexpr : (expr ctx pos).Accounts A ctx pos (Enters A C fun e => [.expr e])) :
    (item inner expr ctx pos).Accounts A ctx pos
      (Enters A C fun i => BodyItem.nodes (some i)) := by
  rw [item, atDefinition_bind_apply]
  split
  · rename_i hhead
    obtain ⟨o, ts, hrest, ho, hdef⟩ := begins_of_atDefinition hhead
    refine accounts_map ((accounts_form L R hC hs.ascending hrest ho
      (fun counted => closing_definition (pos.enter counted ts) h.tidy (hs.tail hrest) hdef)
      fun counted hH => accounts_definition L R h
        (R.inside _ hH (by simp [hdef])) (hs.tail hrest) hdef).mono ?_)
    rintro p ms us - hp
    rwa [Enters, BodyItem.nodes, Option.bind_some, node?_itemOfParsed]
  · exact accounts_map hexpr

end

/-- The node of an item is put among those of the items behind it. -/
theorem accounts_put {xs : List Node} {ms : List Diagnostic} (L : Ledger ctx C A)
    {C' : Position → Prop} {later : Parse (List Definition × List Expr)}
    (hxs : A xs ms) (hlater : (later ctx pos).Accounts A ctx pos (Enters A C' sortedNodes))
    (put : List Definition × List Expr → List Definition × List Expr)
    (hput : ∀ parts, (xs ++ sortedNodes parts).Perm (sortedNodes (put parts))) :
    ((later >>= fun parts => pure (put parts)) ctx pos).Accounts A ctx pos
      fun parts ns q => Enters A C' sortedNodes parts (ms ++ ns) q := by
  refine accounts_bind L hlater L.discard_enters ?_
  rintro parts ns us - ⟨hC, hparts⟩
  refine accounts_pure ⟨hC, ?_⟩
  rw [List.append_nil]
  exact L.perm (hput parts) (L.append hxs hparts)

/-- Items are sorted into nodes, and a definition that comes too late is entered as an error. -/
theorem accounts_items (L : Ledger ctx C A) {C' : Position → Prop}
    {next : Bool → Parse (Option BodyItem)}
    (hnext : ∀ started q, C' q → Supply (fun _ => True) n q.rest →
      (next started ctx q).Accounts A ctx q (Enters A C' BodyItem.nodes))
    (hC : C' pos) (hs : Supply (fun _ => True) n pos.rest) (started seen : Bool) (rounds : Nat) :
    (items next started seen rounds ctx pos).Accounts A ctx pos (Enters A C' sortedNodes) := by
  induction rounds generalizing pos started seen with
  | zero => trivial
  | succ rounds ih =>
      rw [items]
      refine accounts_bind L (hnext started pos hC hs) L.discard_enters ?_
      rintro i? ms us hus ⟨hC, hi⟩
      have hlater := ih hC (hs.of_suffix hus)
      cases i? with
      | none =>
          refine accounts_pure ⟨hC, ?_⟩
          rw [List.append_nil]
          exact hi
      | some i =>
          cases i with
          | nothing =>
              have hi : A [] ms := hi
              refine (hlater started seen).mono ?_
              rintro parts ns vs - ⟨hC, hparts⟩
              refine ⟨hC, ?_⟩
              rw [← List.nil_append (sortedNodes parts)]
              exact L.append hi hparts
          | expression e =>
              refine accounts_put L hi (hlater _ _) (fun parts => (parts.1, e :: parts.2)) ?_
              intro parts
              simpa [sortedNodes, BodyItem.nodes, BodyItem.node?] using List.perm_middle.symm
          | definition d =>
              dsimp only
              split
              · -- It comes too late: its nodes are given up, what was found inside is not.
                have herror : A [.expr (.error d.span)] (ms ++ [late d.span]) :=
                  L.append (L.discard hi) (L.late d)
                rw [bind_apply]
                refine Reply.Accounts.behind (L.discard (L.late d)) L.append_nil ?_
                refine (accounts_put L herror (hlater _ _)
                  (fun parts => (parts.1, .error d.span :: parts.2)) ?_).mono ?_
                · intro parts
                  simpa [sortedNodes] using List.perm_middle.symm
                · intro parts ns vs _ hparts
                  simpa using hparts
              · exact accounts_put L hi (hlater _ _) (fun parts => (d :: parts.1, parts.2))
                  fun parts => .refl _

variable (L : Ledger ctx C A) (R : Route ctx C H T)

include L R

theorem accounts_bracketedBody (h : inner.Accounts A ctx C n) (hC : C pos)
    (hs : Supply (fun _ => True) (n + 1) pos.rest) :
    (bracketedBody inner ctx pos).Accounts A ctx pos (Enters A C Body.children) := by
  have hnext : ∀ started q, C q → Supply (fun _ => True) (n + 1) q.rest →
      (innerItem inner started ctx q).Accounts A ctx q (Enters A C BodyItem.nodes) := by
    intro started q hC hs
    rw [innerItem, peek_bind_apply]
    cases q.rest[0]? with
    | none => exact accounts_pure ⟨hC, L.nil⟩
    | some t =>
        dsimp only
        split
        · exact accounts_pure ⟨hC, L.nil⟩
        · exact accounts_map (accounts_item L R h hC hs (accounts_expression L R h hC hs _))
  rw [bracketedBody]
  refine accounts_bind L (accounts_withRounds (accounts_items L hnext hC hs false false))
    L.discard_enters ?_
  rintro ⟨defs, exprs⟩ ms us - ⟨hC, hparts⟩
  dsimp only
  cases hb : body? defs exprs with
  | none => exact accounts_fail L _
  | some b =>
      refine accounts_pure ⟨hC, ?_⟩
      rwa [List.append_nil, children_of_body? hb]

/-- At a level above the number of tokens, all parsers keep the ledger. -/
theorem accounts_nested (n : Nat) : (nested n).Accounts A ctx C n := by
  induction n with
  | zero =>
      refine ⟨nested_tidy ctx 0, ?_, ?_⟩
      · intro also pos _ hs
        exact absurd hs.length_lt (Nat.not_lt_zero _)
      · intro pos _ hs
        exact absurd hs.length_lt (Nat.not_lt_zero _)
  | succ n ih =>
      refine ⟨nested_tidy ctx (n + 1), ?_, ?_⟩
      · intro also pos hC hs
        exact accounts_expression L R ih hC hs also
      · intro pos hC hs
        exact accounts_bracketedBody L R ih hC hs

/-! ## Programs -/

omit L R in
/-- A word is refused in the place of an expression. -/
theorem eq_surprise_of_expression {also : List String} {why : Diagnostic} {trace : Trace}
    {after : Position}
    (hrest : pos.rest = t :: ts) (ht : t.opens = false)
    (hfailed : expression inner also ctx pos = .failed why trace after) :
    why = Diagnostic.unexpected t.span (some (.token t)) (expressionName :: also) := by
  rw [expression, peek_bind_apply, hrest] at hfailed
  obtain ⟨l, s⟩ := t
  have hword : surprise ctx pos (expressionName :: also)
      = Diagnostic.unexpected s (some (.token ⟨l, s⟩)) (expressionName :: also) := by
    rw [surprise, hrest]
  cases l with
  | atom a => simp [bind_apply, advance, hrest, Reply.behind] at hfailed
  | keyword k =>
      cases k with
      | opening => cases ht
      | _ =>
          cases hfailed
          exact hword

/-- An expression outside all forms, or the error that takes its place. -/
theorem accounts_recovered (h : inner.Accounts A ctx C n) (hC : C pos)
    (hs : Supply (fun _ => True) (n + 1) pos.rest) (hforms : pos.forms = [])
    (hrest : pos.rest = t :: ts) (hc : t.closes = false) :
    (recovered (expression inner []) ctx pos).Accounts A ctx pos
      (Enters A C fun e => [.expr e]) := by
  have key := accounts_expression L R h hC hs []
  unfold recovered
  rcases expression_cases h.tidy hs hforms hrest with ⟨e, trace, he⟩ | ⟨ho, why, hfailed⟩
  · rw [he] at key ⊢
    exact key
  · obtain rfl := eq_surprise_of_expression hrest ho hfailed
    obtain ⟨s, hs⟩ : ∃ s, cover (pos.rest.take (extent pos.rest)) ctx.endOfInput = .ok s :=
      hs.ascending.spanned pos.rest (List.suffix_refl _) _
    have hform : pos.rest.take (extent pos.rest) = [t] := by
      rw [hrest, extent_cons_of_not_opens ho]
      rfl
    have hbehind : pos.rest.drop (extent pos.rest) = ts := by
      rw [hrest, extent_cons_of_not_opens ho]
      rfl
    obtain rfl : t.span = s := by
      simpa [hform, cover, Span.between, Span.make_of_le t.span.start_le_stop] using hs
    rw [hfailed]
    dsimp only
    rw [map_eq_done (recover_eq_of_cover ctx pos hs (by simp) _), hbehind]
    exact ⟨⟨ts, hrest ▸ List.suffix_cons t ts, rfl⟩,
      R.plain _ _ _ (R.formals _ hC) hrest ho hc, L.word t⟩

theorem accounts_outerItem (h : inner.Accounts A ctx C n) (hC : C pos)
    (hs : Supply (fun _ => True) (n + 1) pos.rest) (hforms : pos.forms = []) (started : Bool) :
    (outerItem inner started ctx pos).Accounts A ctx pos (Enters A C BodyItem.nodes) := by
  rw [outerItem, peek_bind_apply]
  cases hrest : pos.rest with
  | nil => exact accounts_pure ⟨hC, L.nil⟩
  | cons t ts =>
      simp only [List.getElem?_cons_zero]
      split
      · rename_i hc
        rw [bind_apply]
        refine Reply.Accounts.behind (L.stray t) L.append_nil ?_
        refine accounts_advance_bind hrest (accounts_pure ⟨R.stray _ _ _ hC hforms hrest hc, ?_⟩)
        rw [List.append_nil]
        exact L.stray t
      · rename_i hc
        rw [Bool.not_eq_true] at hc
        exact accounts_map (accounts_item L R h hC hs
          (accounts_recovered L R h hC hs hforms hrest hc))

omit R in
theorem accounts_programOf {defs : List Definition} {exprs : List Expr} {ms : List Diagnostic}
    (hparts : A (sortedNodes (defs, exprs)) ms) :
    (programOf defs exprs ctx pos).Accounts A ctx pos
      fun p ns _ => A p.children (ms ++ ns) := by
  unfold programOf
  cases hb : body? defs exprs with
  | some b =>
      refine accounts_pure ?_
      rwa [List.append_nil, children_of_body? hb]
  | none =>
      have hnone : exprs = [] := by
        rw [body?, Option.map_eq_none_iff, List.getLast?_eq_none_iff] at hb
        exact hb
      subst hnone
      refine ⟨⟨pos.rest, List.suffix_refl _, rfl⟩, ?_⟩
      have key := L.append hparts L.missing
      simpa [sortedNodes, Body.children] using key

/-- Outside all forms, the nodes of the program are set against all findings. -/
theorem accounts_program (hC : C pos) (hasc : Ascending pos.rest) (hforms : pos.forms = []) :
    (program ctx pos).Accounts A ctx pos fun p ms _ => A p.children ms := by
  have hs : Supply (fun _ => True) (pos.rest.length + 1) pos.rest :=
    ⟨Nat.lt_succ_self _, hasc, fun _ _ => trivial⟩
  have hnext : ∀ started q, C q ∧ q.forms = [] →
      Supply (fun _ => True) (pos.rest.length + 1) q.rest →
      (outerItem (nested pos.rest.length) started ctx q).Accounts A ctx q
        (Enters A (fun q => C q ∧ q.forms = []) BodyItem.nodes) := by
    rintro started q ⟨hC, hforms⟩ hs
    refine (accounts_outerItem L R (accounts_nested L R _) hC hs hforms started).mono ?_
    rintro i ms us - ⟨hC, hi⟩
    exact ⟨⟨hC, hforms⟩, hi⟩
  unfold program
  refine accounts_bind L (accounts_withRounds
    (accounts_items L hnext ⟨hC, hforms⟩ hs false false)) L.discard_enters ?_
  rintro ⟨defs, exprs⟩ ms us - ⟨-, hparts⟩
  exact accounts_programOf L hparts

end Parse

/-- **A ledger for programs.** Tokens in order give a program, whose nodes are set against all
findings. -/
theorem Body.exists_ofTokens_of_ledger {limit : Int} {src : Source}
    (L : Parse.Ledger (Context.ofSource limit src) C A)
    (R : Parse.Route (Context.ofSource limit src) C H T) (hC : C { rest := ts })
    (hasc : Ascending ts) :
    ∃ p notes, ofTokens limit src ts = .ok (p, notes) ∧ A p.children notes := by
  have key := Parse.accounts_program L R hC hasc rfl
  obtain ⟨p, trace, hp, -⟩ := Parse.exists_program_eq_done (P := fun _ => True)
    (Context.ofSource limit src) { rest := ts } ⟨Nat.lt_succ_self _, hasc, fun _ _ => trivial⟩ rfl
  rw [hp] at key
  exact ⟨p, trace.notes, by rw [ofTokens, hp], key.2⟩

end SchemeFront
