import SchemeFront.Proofs.Parse.Mirroring
import SchemeFront.Proofs.Parse.Units

set_option autoImplicit false

/-! # Mirrored programs

Where the parsers for what is inside brackets mirror each other (`Inner.Mirrors`), so do those of
all forms and bodies that are made of them. A form ends in both runs or in none: where the second
run ends is known (`Reply.Closing`), and in the first run as many tokens are left. Outside all
forms the two runs come to programs that say the same, with the same findings
(`Parse.mirrors_program`).
-/

namespace SchemeFront

open Token

variable {α β : Type} {ctx ctx' : Context} {pos pos' : Position}
  {C D H T : Position → Position → Prop} {V W : α → α → Prop} {P : Lexeme → Prop} {Q : α → Prop}
  {n : Nat} {t t' : Token} {ts ts' : List Token}

/-! ## Forms -/

/-- Both forms were parsed, to values with the relation `V`, or none was. -/
def Parsed.Rel (V : α → α → Prop) : Parsed α → Parsed α → Prop
  | whole a, whole b => V a b
  | broken _, broken _ => True
  | _, _ => False

/-- Once the innermost forms are left. -/
theorem Reply.Mirrors.leaving {a b : Reply α} {counted counted' : Bool}
    (h : a.Mirrors D (pos.enter counted ts) (pos'.enter counted' ts') V b)
    (hs : ts <:+ pos.rest) (hs' : ts' <:+ pos'.rest)
    (hC : ∀ us us', D ((pos.enter counted ts).moveTo us) ((pos'.enter counted' ts').moveTo us') →
      C (pos.moveTo us) (pos'.moveTo us')) :
    (a.leaving counted).Mirrors C pos pos' V (b.leaving counted') := by
  cases b with
  | fault f trace' after' => exact fault _ f _ _
  | done b trace' after' =>
      cases a with
      | done a trace after =>
          obtain ⟨hab, htrace, ⟨us, hus, rfl⟩, ⟨us', hus', rfl⟩, hD⟩ := h
          refine ⟨hab, htrace.append rfl, ⟨us, hus.trans hs, by simp⟩,
            ⟨us', hus'.trans hs', by simp⟩, ?_⟩
          rw [Position.leave_moveTo_enter, Position.leave_moveTo_enter]
          exact hC us us' hD
      | failed why trace after => exact h
      | fault fault => exact h
  | failed why' trace' after' =>
      cases a with
      | done a trace after => exact h
      | failed why trace after =>
          obtain ⟨hwhy, htrace, ⟨us, hus, rfl⟩, ⟨us', hus', rfl⟩, hlevel⟩ := h
          refine ⟨hwhy, htrace.append rfl, ⟨us, hus.trans hs, by simp⟩,
            ⟨us', hus'.trans hs', by simp⟩, ?_⟩
          rw [Position.leave_moveTo_enter, Position.leave_moveTo_enter]
          exact hlevel
      | fault fault => exact h

namespace Parse

variable {construct : String} {counted counted' : Bool}

theorem explain_bare {why why' : Diagnostic} (h : why.bare = why'.bare) :
    (explain t construct why).bare = (explain t' construct why').bare := by
  unfold explain
  rw [Diagnostic.atEnd_eq_of_bare h]
  split
  · rfl
  · exact Diagnostic.within_bare construct h

/-- Both runs record a finding and skip a form. -/
theorem mirrors_recover {start start' : List Token} {d d' : Diagnostic}
    (hbare : start.map Token.bare = start'.map Token.bare) (hstart : Spanned start)
    (hstart' : Spanned start') (hs : pos.rest <:+ start) (hs' : pos'.rest <:+ start')
    (hlevel : pos.Level pos') (hle : start'.length - pos'.rest.length ≤ extent start')
    (hd : d.bare = d'.bare)
    (hC : C (pos.moveTo (start.drop (extent start))) (pos'.moveTo (start'.drop (extent start')))) :
    ((recover start d : Parse (Parsed α)) ctx pos).Mirrors C pos pos' (Parsed.Rel V)
      ((recover start' d' : Parse (Parsed α)) ctx' pos') := by
  have hlength : start.length = start'.length := by simpa using congrArg List.length hbare
  have hextent : extent start = extent start' := extent_eq_of_bare hbare
  have hle₀ : start.length - pos.rest.length ≤ extent start := by
    rw [hlength, show pos.rest.length = pos'.rest.length from hlevel, hextent]
    exact hle
  obtain ⟨span, hspan⟩ := recover_eq α ctx pos hstart hle₀ d
  obtain ⟨span', hspan'⟩ := recover_eq α ctx' pos' hstart' hle d'
  rw [hspan, hspan']
  -- What is passed goes at least to where one has come to already.
  refine ⟨trivial, by simp [Trace.Same, hd], ⟨_, ?_, rfl⟩, ⟨_, ?_, rfl⟩, hC⟩
  · refine List.suffix_of_suffix_length_le (List.drop_suffix _ _) hs ?_
    rw [List.length_drop]
    omega
  · refine List.suffix_of_suffix_length_le (List.drop_suffix _ _) hs' ?_
    rw [List.length_drop]
    omega

/-- Inside a form: the second run ends where the form does. -/
theorem mirrors_guarded {inner inner' : Parse α} (htwin : pos.Twin pos')
    (hrest : pos.rest = t :: ts) (hrest' : pos'.rest = t' :: ts') (ho' : t'.opens = true)
    (hclosing : (inner' ctx' (pos'.enter counted' ts')).Closing P (pos'.enter counted' ts') Q)
    (hinner : (inner ctx (pos.enter counted ts)).Mirrors Position.Level (pos.enter counted ts)
      (pos'.enter counted' ts') V (inner' ctx' (pos'.enter counted' ts'))) :
    (guarded construct pos t inner ctx (pos.enter counted ts)).Mirrors
      (fun q q' => q.rest = pos.rest.drop (extent pos.rest) ∧
        q'.rest = pos'.rest.drop (extent pos'.rest))
      (pos.enter counted ts) (pos'.enter counted' ts') (Parsed.Rel V)
      (guarded construct pos' t' inner' ctx' (pos'.enter counted' ts')) := by
  have hts : ts <:+ pos.rest := hrest ▸ List.suffix_cons t ts
  have hts' : ts' <:+ pos'.rest := hrest' ▸ List.suffix_cons t' ts'
  unfold guarded
  cases hb : inner' ctx' (pos'.enter counted' ts') with
  | fault f trace' after' => exact .fault _ f _ _
  | done b trace' after' =>
      rw [hb] at hclosing hinner
      cases ha : inner ctx (pos.enter counted ts) with
      | done a trace after =>
          rw [ha] at hinner
          obtain ⟨hab, htrace, hmoves⟩ := hinner
          obtain ⟨c, us', rfl, hc, hpass, -⟩ := hclosing
          have hend : us' = pos'.rest.drop (extent pos'.rest) := by
            rw [hrest']
            exact (drop_extent_of_passes ho' hc hpass).symm
          refine ⟨hab, htrace, hmoves.mono fun hlevel => ⟨?_, hend⟩⟩
          obtain ⟨us, hus, rfl⟩ := hmoves.left
          exact htwin.rest_eq_drop_extent (hus.trans hts) hlevel hend
      | failed why trace after =>
          rw [ha] at hinner
          exact hinner.elim
      | fault fault =>
          rw [ha] at hinner
          exact hinner.elim
  | failed why' trace' after' =>
      rw [hb] at hclosing hinner
      cases ha : inner ctx (pos.enter counted ts) with
      | done a trace after =>
          rw [ha] at hinner
          exact hinner.elim
      | failed why trace after =>
          rw [ha] at hinner
          obtain ⟨hwhy, htrace, hmoves⟩ := hinner
          have houtside : pos.forms.isEmpty = pos'.forms.isEmpty := by
            rw [Bool.eq_iff_iff, List.isEmpty_iff, List.isEmpty_iff]
            exact htwin.outside
          dsimp only
          rw [Diagnostic.atEnd_eq_of_bare hwhy, houtside]
          split
          · exact ⟨hwhy, htrace, hmoves⟩
          · obtain ⟨us', rfl, hreach, -⟩ := hclosing
            have hlevel := hmoves.holds
            obtain ⟨us, hus, rfl⟩ := hmoves.left
            have hskip : (recover pos.rest (explain t construct why) ctx
                ((pos.enter counted ts).moveTo us)).Mirrors
                (fun q q' => q.rest = pos.rest.drop (extent pos.rest) ∧
                  q'.rest = pos'.rest.drop (extent pos'.rest))
                ((pos.enter counted ts).moveTo us) ((pos'.enter counted' ts').moveTo us')
                (Parsed.Rel V)
                (recover pos'.rest (explain t' construct why') ctx'
                  ((pos'.enter counted' ts').moveTo us')) := by
              refine mirrors_recover htwin.bare_eq htwin.spanned htwin.ascending.spanned
                (hus.trans hts) (hreach.suffix.trans hts') hlevel ?_ (explain_bare hwhy) ⟨rfl, rfl⟩
              rw [hrest']
              exact length_sub_le_extent ho' hreach
            exact hskip.behind htrace (hmoves.mono fun _ => hlevel)
      | fault fault =>
          rw [ha] at hinner
          exact hinner.elim

variable (G : Pairing ctx ctx' C H T)

include G

/-- A form: nested too deeply in both runs, or entered in both. -/
theorem mirrors_form {inner inner' : Token → Parse α} (hC : C pos pos')
    (hrest : pos.rest = t :: ts) (hrest' : pos'.rest = t' :: ts') (ho : t.opens = true)
    (hclosing : ∀ counted,
      (inner' t' ctx' (pos'.enter counted ts')).Closing P (pos'.enter counted ts') Q)
    (hinner : ∀ counted counted', H (pos.enter counted ts) (pos'.enter counted' ts') →
      (inner t ctx (pos.enter counted ts)).Mirrors Position.Level (pos.enter counted ts)
        (pos'.enter counted' ts') V (inner' t' ctx' (pos'.enter counted' ts'))) :
    (form construct inner ctx pos).Mirrors C pos pos' (Parsed.Rel V)
      (form construct inner' ctx' pos') := by
  have htwin := G.twin_of hC
  have ho' : t'.opens = true := by
    rw [← opens_eq_of_bare (htwin.bare_head hrest hrest')]
    exact ho
  have hbehind := G.form _ _ _ _ (G.formals _ _ hC) hrest ho
  unfold form
  rw [hrest, hrest']
  dsimp only
  rcases G.enter _ _ _ _ _ _ hC hrest hrest' ho with ⟨hdeep, hdeep', hlimit⟩ |
    ⟨hdeep, hdeep', hH⟩
  · rw [Context.refuses] at hdeep hdeep'
    rw [if_pos hdeep, if_pos hdeep', ← hrest, ← hrest']
    refine mirrors_recover htwin.bare_eq htwin.spanned htwin.ascending.spanned
      (List.suffix_refl _) (List.suffix_refl _) htwin.level (by simp) ?_ hbehind
    rw [hlimit]
    rfl
  · rw [Context.refuses, Bool.eq_false_iff] at hdeep hdeep'
    rw [if_neg hdeep, if_neg hdeep']
    refine Reply.Mirrors.leaving (Reply.Mirrors.behind
      (mirrors_guarded htwin hrest hrest' ho' (hclosing _) (hinner _ _ hH)) rfl
      (.refl trivial : Position.Moves (fun _ _ => True) _ _ _ _))
      (hrest ▸ List.suffix_cons t ts) (hrest' ▸ List.suffix_cons t' ts') ?_
    rintro us us' ⟨hus, hus'⟩
    rw [Position.moveTo_rest] at hus hus'
    rw [hus, hus']
    exact hbehind

end Parse

/-! ## Inside forms -/

/-- The parsers for what is inside brackets mirror each other where fewer than `n` tokens are
left. -/
structure Inner.Mirrors (ctx ctx' : Context) (C : Position → Position → Prop) (n : Nat)
    (inner : Inner) : Prop where
  tidy : inner.Tidy (fun _ => True) ctx' n
  expr : ∀ also pos pos', C pos pos' → pos'.rest.length < n →
    (inner.expr also ctx pos).Mirrors C pos pos' (fun e f => e.same f) (inner.expr also ctx' pos')
  body : ∀ pos pos', C pos pos' → pos'.rest.length < n →
    (inner.body ctx pos).Mirrors C pos pos' (fun b c => b.same c) (inner.body ctx' pos')

namespace Parse

variable {inner : Inner}

/-- What follows a bracket is decided by what the next token says. -/
theorem formOf_eq_of_bare {head head' : Option Token}
    (h : head.map Token.bare = head'.map Token.bare) : formOf inner head = formOf inner head' := by
  have hiff := map_lexeme_eq_keyword_iff h
  unfold formOf
  split
  · rename_i hhead
    rw [(hiff _).1 hhead]
  · rename_i hhead
    rw [(hiff _).1 hhead]
  · rename_i hhead
    rw [(hiff _).1 hhead]
  · rename_i hhead
    rw [(hiff _).1 hhead]
  · rename_i hif hlambda hset hdefine
    split
    · rename_i hhead
      exact absurd ((hiff _).2 hhead) hif
    · rename_i hhead
      exact absurd ((hiff _).2 hhead) hlambda
    · rename_i hhead
      exact absurd ((hiff _).2 hhead) hset
    · rename_i hhead
      exact absurd ((hiff _).2 hhead) hdefine
    · rfl

variable (G : Pairing ctx ctx' C H T)

include G

/-- The word that begins a form is read. -/
theorem mirrors_word {k : Keyword} (hC : C pos pos')
    (hhead : pos.rest[0]?.map Token.lexeme = some (.keyword k)) (ho : k ≠ .opening)
    (hc : k ≠ .closing) :
    (advance ctx pos).Mirrors C pos pos' (fun _ _ => True) (advance ctx' pos') := by
  obtain ⟨t, ts, hrest, ht⟩ := exists_of_head hhead
  obtain ⟨t', ts', hrest', -⟩ := (G.twin_of hC).exists_cons hrest
  obtain ⟨hto, htc⟩ := not_bracket_of_keyword ht ho hc
  exact (mirrors_advance hrest hrest'
    (G.plain _ _ _ _ _ _ (G.formals _ _ hC) hrest hrest' hto htc)).mono (fun _ _ _ h => h)
    fun _ _ _ => trivial

theorem mirrors_alternative (h : inner.Mirrors ctx ctx' C n) (hC : C pos pos')
    (hn : pos'.rest.length < n) :
    (alternative inner ctx pos).Mirrors C pos pos' (fun a b => Expr.sameOption a b)
      (alternative inner ctx' pos') := by
  rw [alternative, nextCloses_bind_apply, nextCloses_bind_apply,
    (G.twin_of hC).any_next 0 (f := Token.closes) fun _ _ => closes_eq_of_bare]
  split
  · exact mirrors_pure hC rfl
  · exact mirrors_map (h.expr _ _ _ hC hn) fun e f hef => hef

theorem mirrors_conditional (h : inner.Mirrors ctx ctx' C n) (hC : C pos pos')
    (hn : pos'.rest.length < n)
    (hhead : pos.rest[0]?.map Token.lexeme = some (.keyword .conditional)) :
    (conditional inner t ctx pos).Mirrors Position.Twin pos pos' (fun e f => e.same f)
      (conditional inner t' ctx' pos') := by
  unfold conditional
  refine mirrors_bind (mirrors_word G hC hhead (by decide) (by decide)) ?_
  rintro _ _ q q' - hq
  have hn := hq.length_lt hn
  refine mirrors_bind (h.expr [] q q' hq.holds hn) ?_
  rintro test test' r r' htest hr
  have hn := hr.length_lt hn
  refine mirrors_bind (h.expr [] r r' hr.holds hn) ?_
  rintro conseq conseq' s s' hconseq hs
  have hn := hs.length_lt hn
  refine mirrors_bind (mirrors_alternative G h hs.holds hn) ?_
  rintro alter alter' u u' halter hu
  exact mirrors_closed (G.twin_of hu.holds) fun _ _ => by
    simp [Expr.same, htest, hconseq, halter]

theorem mirrors_procedure (h : inner.Mirrors ctx ctx' C n) (hH : H pos pos')
    (hn : pos'.rest.length < n)
    (hhead : pos.rest[0]?.map Token.lexeme = some (.keyword .lambda)) :
    (procedure inner t ctx pos).Mirrors Position.Twin pos pos' (fun e f => e.same f)
      (procedure inner t' ctx' pos') := by
  obtain ⟨word, us, hrest, hword⟩ := exists_of_head hhead
  obtain ⟨word', us', hrest', -⟩ := (G.twin_inside _ _ hH).exists_cons hrest
  unfold procedure
  refine mirrors_bind (mirrors_advance hrest hrest'
    (G.word _ _ _ _ _ _ hH hrest hrest' hword)) ?_
  rintro _ _ q q' - hq
  have hn := hq.length_lt hn
  refine mirrors_bind (mirrors_formals G hq.holds) ?_
  rintro ⟨v, is⟩ ⟨w, js⟩ r r' ⟨hv, his⟩ hr
  have hn := hr.length_lt hn
  refine mirrors_bind (h.body r r' hr.holds hn) ?_
  rintro body body' s s' hbody hs
  exact mirrors_closed (G.twin_of hs.holds) fun _ _ => by
    simp_all [Expr.same, Identifier.sameAll]

theorem mirrors_assignment (h : inner.Mirrors ctx ctx' C n) (hC : C pos pos')
    (hn : pos'.rest.length < n)
    (hhead : pos.rest[0]?.map Token.lexeme = some (.keyword .assign)) :
    (assignment inner t ctx pos).Mirrors Position.Twin pos pos' (fun e f => e.same f)
      (assignment inner t' ctx' pos') := by
  unfold assignment
  refine mirrors_bind (mirrors_word G hC hhead (by decide) (by decide)) ?_
  rintro _ _ q q' - hq
  have hn := hq.length_lt hn
  refine mirrors_bind (mirrors_name G (G.formals _ _ hq.holds) _) ?_
  rintro target target' r r' htarget hr
  have hn := hr.length_lt hn
  refine mirrors_bind (h.expr [] r r' hr.holds hn) ?_
  rintro value value' s s' hvalue hs
  exact mirrors_closed (G.twin_of hs.holds) fun _ _ => by
    simp [Expr.same, Identifier.same, htarget, hvalue]

theorem mirrors_arguments (h : inner.Mirrors ctx ctx' C n) (hC : C pos pos')
    (hn : pos'.rest.length < n) (rounds : Nat) :
    (arguments inner rounds ctx pos).Mirrors C pos pos' (fun es fs => Expr.sameAll es fs)
      (arguments inner rounds ctx' pos') := by
  induction rounds generalizing pos pos' with
  | zero => exact .fault _ _ _ _
  | succ rounds ih =>
      rw [arguments, nextCloses_bind_apply, nextCloses_bind_apply,
        (G.twin_of hC).any_next 0 (f := Token.closes) fun _ _ => closes_eq_of_bare]
      split
      · exact mirrors_pure hC rfl
      · refine mirrors_bind (h.expr _ _ _ hC hn) ?_
        rintro e f q q' hef hq
        refine mirrors_bind (ih hq.holds (hq.length_lt hn)) ?_
        rintro es fs r r' hes hr
        exact mirrors_pure hr.holds (by simp [Expr.sameAll, hef, hes])

theorem mirrors_call (h : inner.Mirrors ctx ctx' C n) (hC : C pos pos')
    (hn : pos'.rest.length < n) :
    (call inner t ctx pos).Mirrors Position.Twin pos pos' (fun e f => e.same f)
      (call inner t' ctx' pos') := by
  unfold call
  refine mirrors_bind (h.expr [] _ _ hC hn) ?_
  rintro operator operator' q q' hoperator hq
  have hn := hq.length_lt hn
  refine mirrors_bind (mirrors_withRounds (G.twin_of hq.holds).level
    fun rounds => mirrors_arguments G h hq.holds hn rounds) ?_
  rintro args args' r r' hargs hr
  exact mirrors_closed (G.twin_of hr.holds) fun _ _ => by simp [Expr.same, hoperator, hargs]

/-- Whatever follows a bracket. -/
theorem mirrors_formOf (h : inner.Mirrors ctx ctx' C n) (hH : H pos pos')
    (hn : pos'.rest.length < n) :
    ((formOf inner pos.rest[0]?).2 t ctx pos).Mirrors Position.Level pos pos'
      (fun e f => e.same f) ((formOf inner pos.rest[0]?).2 t' ctx' pos') := by
  have hlevel : ∀ {a b : Reply Expr},
      a.Mirrors Position.Twin pos pos' (fun e f => e.same f) b →
      a.Mirrors Position.Level pos pos' (fun e f => e.same f) b :=
    fun h => h.mono (fun _ _ _ h => h.level) fun _ _ h => h
  unfold formOf
  split
  · rename_i hhead
    exact hlevel (mirrors_conditional G h (G.inside _ _ hH (by simp [hhead])) hn hhead)
  · rename_i hhead
    exact hlevel (mirrors_procedure G h hH hn hhead)
  · rename_i hhead
    exact hlevel (mirrors_assignment G h (G.inside _ _ hH (by simp [hhead])) hn hhead)
  · rename_i hhead
    obtain ⟨word, us, hrest, -⟩ := exists_of_head hhead
    obtain ⟨word', us', hrest', -⟩ := (G.twin_inside _ _ hH).exists_cons hrest
    dsimp only
    rw [strayDefinition, peek_bind_apply, strayDefinition, peek_bind_apply, hrest, hrest']
    exact mirrors_reject (G.twin_inside _ _ hH).level rfl
  · rename_i hlambda _ _
    exact hlevel (mirrors_call G h (G.inside _ _ hH hlambda) hn)

theorem mirrors_compound (h : inner.Mirrors ctx ctx' C n) (hC : C pos pos')
    (hn : pos'.rest.length < n + 1) (hrest : pos.rest = t :: ts) (ho : t.opens = true) :
    (compound inner ctx pos).Mirrors C pos pos' (fun e f => e.same f)
      (compound inner ctx' pos') := by
  have htwin := G.twin_of hC
  obtain ⟨t', ts', hrest', ht⟩ := htwin.exists_cons hrest
  have hsupply := (htwin.supply hn).tail hrest'
  have hhead : formOf inner ts[0]? = formOf inner ts'[0]? :=
    formOf_eq_of_bare ((htwin.tail hrest hrest').next 0)
  have hnext : pos.rest[1]? = ts[0]? := by simp [hrest]
  have hnext' : pos'.rest[1]? = ts'[0]? := by simp [hrest']
  rw [compound, peek_bind_apply, peek_bind_apply, hnext, hnext', ← hhead]
  refine mirrors_map (mirrors_form G hC hrest hrest' ho (P := fun _ => True)
    (Q := Expr.Mentions fun _ => True) (V := fun e f => e.same f) ?_ ?_) ?_
  · intro counted
    rw [hhead]
    exact closing_formOf (pos'.enter counted ts') h.tidy hsupply
  · intro counted counted' hH
    exact mirrors_formOf G h hH hsupply.length_lt
  · rintro (e | s) (f | s') hef
    · exact hef
    · exact hef.elim
    · exact hef.elim
    · simp [ofParsed, Expr.same]

theorem mirrors_expression (h : inner.Mirrors ctx ctx' C n) (hC : C pos pos')
    (hn : pos'.rest.length < n + 1) (also : List String) :
    (expression inner also ctx pos).Mirrors C pos pos' (fun e f => e.same f)
      (expression inner also ctx' pos') := by
  have htwin := G.twin_of hC
  rw [expression, peek_bind_apply, peek_bind_apply]
  cases hrest : pos.rest with
  | nil =>
      rw [htwin.eq_nil hrest]
      exact mirrors_fail htwin _
  | cons t ts =>
      obtain ⟨t', ts', hrest', ht⟩ := htwin.exists_cons hrest
      rw [hrest']
      obtain ⟨l, s⟩ := t
      obtain ⟨l', s'⟩ := t'
      cases l with
      | atom a =>
          obtain ⟨b, rfl, hab⟩ := exists_atom_of_bare ht rfl
          refine mirrors_bind (mirrors_advance hrest hrest'
            (G.plain _ _ _ _ _ _ (G.formals _ _ hC) hrest hrest' rfl rfl)) ?_
          rintro _ _ q q' - hq
          exact mirrors_pure hq.holds (by simp [Expr.same, hab])
      | keyword k =>
          obtain rfl : l' = .keyword k := lexeme_eq_keyword_iff.2 ht.symm
          cases k with
          | opening => exact mirrors_compound G h hC hn hrest rfl
          | _ => exact mirrors_fail htwin _

/-! ## Definitions -/

theorem mirrors_namedValue (h : inner.Mirrors ctx ctx' C n) (hC : C pos pos')
    (hn : pos'.rest.length < n) :
    (namedValue inner t ctx pos).Mirrors Position.Twin pos pos' (fun d e => d.same e)
      (namedValue inner t' ctx' pos') := by
  unfold namedValue
  refine mirrors_bind (mirrors_name G (G.formals _ _ hC) _) ?_
  rintro name name' q q' hname hq
  have hn := hq.length_lt hn
  refine mirrors_bind (h.expr [] q q' hq.holds hn) ?_
  rintro value value' r r' hvalue hr
  exact mirrors_closed (G.twin_of hr.holds) fun _ _ => by
    simp [Definition.same, Identifier.same, hname, hvalue]

theorem mirrors_namedProcedure (h : inner.Mirrors ctx ctx' C n) (hC : C pos pos')
    (hn : pos'.rest.length < n) {o : Token} (hrest : pos.rest = o :: ts) (ho : o.opens = true) :
    (namedProcedure inner t ctx pos).Mirrors Position.Twin pos pos' (fun d e => d.same e)
      (namedProcedure inner t' ctx' pos') := by
  have htwin := G.twin_of hC
  obtain ⟨o', ts', hrest', -⟩ := htwin.exists_cons hrest
  unfold namedProcedure
  refine mirrors_bind (C := fun r r' => r.Twin r' ∧ r.rest = ts)
    (mirrors_advance hrest hrest' ⟨htwin.tail hrest hrest', rfl⟩) ?_
  rintro _ _ q q' - hq
  obtain ⟨hqtwin, hqrest⟩ := hq.holds
  refine mirrors_bind (mirrors_identifier hqtwin _) ?_
  rintro name name' r r' hname hr
  obtain ⟨hrtwin, first, -, hfirst, -, hnamed⟩ := hr.holds
  -- The name and the parameters stand in one pair of brackets.
  refine mirrors_bind ((mirrors_parameters hrtwin).mono (D := C) ?_ fun _ _ h => h) ?_
  · rintro s s' hmoves ⟨hs, names, c, hnames, hall, hc⟩
    have hts : ts = (first :: names) ++ c :: s.rest := by
      rw [← hqrest, hfirst, hnames, List.cons_append]
    exact holds_of_pastNames G (G.formals _ _ hC) hrest ho
      (hq.trans (hr.trans (hmoves.mono fun h => h.1.level))) hts (by simpa [hnamed] using hall) hc
  rintro params params' s s' hparams hs
  have hn := hs.length_lt (hr.length_lt (hq.length_lt hn))
  refine mirrors_bind (h.body s s' hs.holds hn) ?_
  rintro body body' u u' hbody hu
  exact mirrors_closed (G.twin_of hu.holds) fun _ _ => by
    simp [Definition.same, Expr.same, Identifier.same, Identifier.sameAll, hname, hparams, hbody]

theorem mirrors_definition (h : inner.Mirrors ctx ctx' C n) (hC : C pos pos')
    (hn : pos'.rest.length < n)
    (hhead : pos.rest[0]?.map Token.lexeme = some (.keyword .define)) :
    (definition inner t ctx pos).Mirrors Position.Twin pos pos' (fun d e => d.same e)
      (definition inner t' ctx' pos') := by
  unfold definition
  refine mirrors_bind (mirrors_word G hC hhead (by decide) (by decide)) ?_
  rintro _ _ q q' - hq
  have hn := hq.length_lt hn
  have htwin := G.twin_of hq.holds
  rw [peek_bind_apply, peek_bind_apply]
  cases hrest : q.rest with
  | nil =>
      rw [htwin.eq_nil hrest]
      exact mirrors_fail htwin _
  | cons o us =>
      obtain ⟨o', us', hrest', ho⟩ := htwin.exists_cons hrest
      simp only [hrest', List.getElem?_cons_zero, name?_eq_of_bare ho, opens_eq_of_bare ho]
      split
      · exact mirrors_namedValue G h hq.holds hn
      · split
        · rename_i hopens
          rw [← opens_eq_of_bare ho] at hopens
          exact mirrors_namedProcedure G h hq.holds hn hrest hopens
        · exact mirrors_fail htwin _

end Parse

/-! ## Bodies -/

/-- Two items say the same. -/
def BodyItem.Same : BodyItem → BodyItem → Prop
  | definition d, definition e => d.same e
  | expression e, expression f => e.same f
  | nothing, nothing => True
  | _, _ => False

namespace Parse

variable {inner : Inner} {next : Bool → Parse (Option BodyItem)}

theorem same_itemOfParsed {p p' : Parsed Definition} (h : p.Rel (fun d e => d.same e) p') :
    (itemOfParsed p).Same (itemOfParsed p') := by
  cases p <;> cases p'
  · exact h
  · exact h.elim
  · exact h.elim
  · simp [itemOfParsed, BodyItem.Same, Expr.same]

/-- Items are sorted in the same way. -/
theorem mirrors_items
    (hnext : ∀ started q q', C q q' → q'.rest.length < n →
      (next started ctx q).Mirrors C q q' (Option.Rel BodyItem.Same) (next started ctx' q'))
    (hC : C pos pos') (hn : pos'.rest.length < n) (started seen : Bool) (rounds : Nat) :
    (items next started seen rounds ctx pos).Mirrors C pos pos'
      (fun v w => Definition.sameAll v.1 w.1 ∧ Expr.sameAll v.2 w.2)
      (items next started seen rounds ctx' pos') := by
  induction rounds generalizing pos pos' started seen with
  | zero => exact .fault _ _ _ _
  | succ rounds ih =>
      rw [items]
      refine mirrors_bind (hnext started _ _ hC hn) ?_
      rintro i i' q q' hi hq
      have hn := hq.length_lt hn
      cases hi with
      | none => exact mirrors_pure hq.holds ⟨rfl, rfl⟩
      | @some i i' hi =>
          cases i with
          | nothing =>
              cases i' with
              | nothing => exact ih hq.holds hn _ _
              | definition d => exact hi.elim
              | expression e => exact hi.elim
          | expression e =>
              cases i' with
              | nothing => exact hi.elim
              | definition d => exact hi.elim
              | expression e' =>
                  have he : e.same e' = true := hi
                  dsimp only
                  rw [Expr.isError_eq_of_same he]
                  refine mirrors_bind (ih hq.holds hn _ _) ?_
                  rintro ⟨ds, es⟩ ⟨ds', es'⟩ r r' ⟨hds, hes⟩ hr
                  exact mirrors_pure hr.holds ⟨hds, by simpa [Expr.sameAll, he] using hes⟩
          | definition d =>
              cases i' with
              | nothing => exact hi.elim
              | expression e => exact hi.elim
              | definition d' =>
                  have hd : d.same d' = true := hi
                  dsimp only
                  split
                  · refine mirrors_bind (mirrors_note hq.holds rfl) ?_
                    rintro _ _ q q' - hq
                    refine mirrors_bind (ih hq.holds (hq.length_lt hn) _ _) ?_
                    rintro ⟨ds, es⟩ ⟨ds', es'⟩ r r' ⟨hds, hes⟩ hr
                    exact mirrors_pure hr.holds ⟨hds, by simpa [Expr.sameAll, Expr.same] using hes⟩
                  · refine mirrors_bind (ih hq.holds hn _ _) ?_
                    rintro ⟨ds, es⟩ ⟨ds', es'⟩ r r' ⟨hds, hes⟩ hr
                    exact mirrors_pure hr.holds
                      ⟨by simpa [Definition.sameAll, hd] using hds, hes⟩

variable (G : Pairing ctx ctx' C H T)

include G

theorem mirrors_item (h : inner.Mirrors ctx ctx' C n) (hC : C pos pos')
    (hn : pos'.rest.length < n + 1) {expr : Parse Expr}
    (hexpr : (expr ctx pos).Mirrors C pos pos' (fun e f => e.same f) (expr ctx' pos')) :
    (item inner expr ctx pos).Mirrors C pos pos' BodyItem.Same (item inner expr ctx' pos') := by
  have htwin := G.twin_of hC
  rw [item, atDefinition_bind_apply, atDefinition_bind_apply,
    htwin.any_next 0 (f := Token.opens) fun _ _ => opens_eq_of_bare,
    htwin.any_next 1 (f := Token.isKeyword .define) fun _ _ h => isKeyword_eq_of_bare h _]
  split
  · rename_i hhead
    obtain ⟨t', ts', hrest', ho', hdef'⟩ := begins_of_atDefinition hhead
    cases hrest : pos.rest with
    | nil =>
        rw [htwin.eq_nil hrest] at hrest'
        cases hrest'
    | cons t ts =>
        have htail := htwin.tail hrest hrest'
        have ho : t.opens = true := by
          rw [opens_eq_of_bare (htwin.bare_head hrest hrest')]
          exact ho'
        have hsupply := (htwin.supply hn).tail hrest'
        have hdef : ts[0]?.map Token.lexeme = some (.keyword .define) :=
          (map_lexeme_eq_keyword_iff (htail.next 0) _).2 hdef'
        refine mirrors_map (mirrors_form G hC hrest hrest' ho (P := fun _ => True)
          (Q := Definition.Mentions fun _ => True) (V := fun d e => d.same e) ?_ ?_)
          fun _ _ => same_itemOfParsed
        · intro counted
          exact closing_definition (pos'.enter counted ts') h.tidy hsupply hdef'
        · intro counted counted' hH
          have hinside := G.inside _ _ hH (by simp [hdef])
          exact (mirrors_definition G h hinside hsupply.length_lt hdef).mono
            (fun _ _ _ h => h.level) fun _ _ h => h
  · exact mirrors_map hexpr fun e f hef => hef

theorem mirrors_bracketedBody (h : inner.Mirrors ctx ctx' C n) (hC : C pos pos')
    (hn : pos'.rest.length < n + 1) :
    (bracketedBody inner ctx pos).Mirrors C pos pos' (fun b c => b.same c)
      (bracketedBody inner ctx' pos') := by
  have hnext : ∀ started q q', C q q' → q'.rest.length < n + 1 →
      (innerItem inner started ctx q).Mirrors C q q' (Option.Rel BodyItem.Same)
        (innerItem inner started ctx' q') := by
    intro started q q' hC hn
    have htwin := G.twin_of hC
    rw [innerItem, peek_bind_apply, peek_bind_apply]
    cases hrest : q.rest with
    | nil =>
        rw [htwin.eq_nil hrest]
        exact mirrors_pure hC .none
    | cons t ts =>
        obtain ⟨t', ts', hrest', ht⟩ := htwin.exists_cons hrest
        simp only [hrest', List.getElem?_cons_zero, closes_eq_of_bare ht]
        split
        · exact mirrors_pure hC .none
        · exact mirrors_map (mirrors_item G h hC hn (mirrors_expression G h hC hn _))
            fun i i' => .some
  unfold bracketedBody
  refine mirrors_bind (mirrors_withRounds (G.twin_of hC).level
    fun rounds => mirrors_items hnext hC hn false false rounds) ?_
  rintro ⟨ds, es⟩ ⟨ds', es'⟩ q q' ⟨hds, hes⟩ hq
  have hbody := same_body? hds hes
  dsimp only
  generalize body? ds es = found, body? ds' es' = found' at hbody
  cases hbody with
  | none => exact mirrors_fail (G.twin_of hq.holds) _
  | some hbc => exact mirrors_pure hq.holds hbc

/-- At a level above the number of tokens, all parsers mirror each other. -/
theorem mirrors_nested (n : Nat) : (nested n).Mirrors ctx ctx' C n := by
  induction n with
  | zero =>
      refine ⟨nested_tidy ctx' 0, ?_, ?_⟩
      · intro also pos pos' _ hn
        exact absurd hn (Nat.not_lt_zero _)
      · intro pos pos' _ hn
        exact absurd hn (Nat.not_lt_zero _)
  | succ n ih =>
      refine ⟨nested_tidy ctx' (n + 1), ?_, ?_⟩
      · intro also pos pos' hC hn
        exact mirrors_expression G ih hC hn also
      · intro pos pos' hC hn
        exact mirrors_bracketedBody G ih hC hn

/-! ## Programs -/

/-- An expression outside all forms: the second run can fail only before a word. -/
theorem mirrors_recovered (h : inner.Mirrors ctx ctx' C n) (hC : C pos pos')
    (hn : pos'.rest.length < n + 1) (hforms : pos.forms = []) (hrest : pos.rest = t :: ts)
    (hc : t.closes = false) :
    (recovered (expression inner []) ctx pos).Mirrors C pos pos' (fun e f => e.same f)
      (recovered (expression inner []) ctx' pos') := by
  have htwin := G.twin_of hC
  obtain ⟨t', ts', hrest', ht⟩ := htwin.exists_cons hrest
  have key := mirrors_expression G h hC hn []
  unfold recovered
  rcases expression_cases h.tidy (htwin.supply hn) (htwin.outside.1 hforms) hrest' with
    ⟨e', trace', he'⟩ | ⟨ho', why', hfailed'⟩
  · rw [he'] at key ⊢
    cases he : expression inner [] ctx pos with
    | done e trace after =>
        rw [he] at key
        exact key
    | failed why trace after =>
        rw [he] at key
        exact key.elim
    | fault fault =>
        rw [he] at key
        exact key.elim
  · rw [hfailed'] at key ⊢
    cases he : expression inner [] ctx pos with
    | done e trace after =>
        rw [he] at key
        exact key.elim
    | failed why trace after =>
        rw [he] at key
        obtain ⟨hwhy, htrace, ⟨us, hus, rfl⟩, -, hlevel⟩ := key
        obtain rfl : us = pos.rest :=
          eq_of_suffix hus (List.suffix_refl _) (hlevel.trans htwin.level.symm)
        have ho : t.opens = false := by rw [opens_eq_of_bare ht, ho']
        have hskip : (recover pos.rest why ctx pos : Reply (Parsed Expr)).Mirrors C pos pos'
            (Parsed.Rel fun e f => e.same f) (recover pos'.rest why' ctx' pos') := by
          refine mirrors_recover htwin.bare_eq htwin.spanned htwin.ascending.spanned
            (List.suffix_refl _) (List.suffix_refl _) htwin.level (by simp) hwhy ?_
          rw [hrest, hrest', extent_cons_of_not_opens ho, extent_cons_of_not_opens ho']
          exact G.plain _ _ _ _ _ _ (G.formals _ _ hC) hrest hrest' ho hc
        refine Reply.Mirrors.behind (mirrors_map hskip ?_) htrace (.refl hlevel)
        rintro (e | s) (f | s') hef
        · exact hef
        · exact hef.elim
        · exact hef.elim
        · simp [ofParsed, Expr.same]
    | fault fault =>
        rw [he] at key
        exact key.elim

theorem mirrors_outerItem (h : inner.Mirrors ctx ctx' C n) (hC : C pos pos')
    (hn : pos'.rest.length < n + 1) (hforms : pos.forms = []) (started : Bool) :
    (outerItem inner started ctx pos).Mirrors C pos pos' (Option.Rel BodyItem.Same)
      (outerItem inner started ctx' pos') := by
  have htwin := G.twin_of hC
  rw [outerItem, peek_bind_apply, peek_bind_apply]
  cases hrest : pos.rest with
  | nil =>
      rw [htwin.eq_nil hrest]
      exact mirrors_pure hC .none
  | cons t ts =>
      obtain ⟨t', ts', hrest', ht⟩ := htwin.exists_cons hrest
      simp only [hrest', List.getElem?_cons_zero, closes_eq_of_bare ht]
      split
      · rename_i hc
        rw [← closes_eq_of_bare ht] at hc
        refine mirrors_bind (C := fun q q' => q = pos ∧ q' = pos')
          (mirrors_note ⟨rfl, rfl⟩ (Diagnostic.unexpected_bare ht _)) ?_
        rintro _ _ q q' - hq
        obtain ⟨rfl, rfl⟩ := hq.holds
        refine mirrors_bind (mirrors_advance hrest hrest'
          (G.stray _ _ _ _ _ _ hC hforms hrest hrest' hc)) ?_
        rintro _ _ r r' - hr
        exact mirrors_pure hr.holds (.some trivial)
      · rename_i hc
        rw [← closes_eq_of_bare ht, Bool.not_eq_true] at hc
        exact mirrors_map (mirrors_item G h hC hn (mirrors_recovered G h hC hn hforms hrest hc))
          fun i i' => .some

omit G in
theorem mirrors_programOf {ds ds' : List Definition} {es es' : List Expr}
    (hC : C pos pos') (hds : Definition.sameAll ds ds' = true) (hes : Expr.sameAll es es' = true) :
    (programOf ds es ctx pos).Mirrors C pos pos' (fun p q => p.same q)
      (programOf ds' es' ctx' pos') := by
  have hbody := same_body? hds hes
  unfold programOf
  generalize body? ds es = found, body? ds' es' = found' at hbody
  cases hbody with
  | none =>
      refine mirrors_bind (mirrors_note hC rfl) ?_
      rintro _ _ q q' - hq
      exact mirrors_pure hq.holds (by simp [Body.same, Expr.sameAll, Expr.same, hds])
  | some hbc => exact mirrors_pure hC hbc

/-- Outside all forms the two runs come to the same program, with the same findings. -/
theorem mirrors_program (hC : C pos pos') (hforms : pos.forms = []) :
    (program ctx pos).Mirrors C pos pos' (fun p q => p.same q) (program ctx' pos') := by
  have hlevel : pos.rest.length = pos'.rest.length := (G.twin_of hC).level
  have hnext : ∀ started q q', C q q' ∧ q.forms = [] → q'.rest.length < pos.rest.length + 1 →
      (outerItem (nested pos.rest.length) started ctx q).Mirrors
        (fun q q' => C q q' ∧ q.forms = []) q q' (Option.Rel BodyItem.Same)
        (outerItem (nested pos.rest.length) started ctx' q') := by
    rintro started q q' ⟨hC, hforms⟩ hn
    refine (mirrors_outerItem G (mirrors_nested G _) hC hn hforms started).mono ?_
      fun _ _ h => h
    rintro r r' ⟨⟨rest, -, rfl⟩, -, -⟩ hr
    exact ⟨hr, hforms⟩
  unfold program
  rw [← hlevel]
  refine mirrors_bind (mirrors_withRounds (G.twin_of hC).level
    fun rounds => mirrors_items hnext ⟨hC, hforms⟩ (by omega) false false rounds) ?_
  rintro ⟨ds, es⟩ ⟨ds', es'⟩ q q' ⟨hds, hes⟩ hq
  exact mirrors_programOf hq.holds.1 hds hes

/-- So the first run gives an answer. -/
theorem exists_program_of_pairing (hC : C pos pos') (hforms : pos.forms = []) :
    ∃ p q trace trace' after after', program ctx pos = .done p trace after ∧
      program ctx' pos' = .done q trace' after' ∧ p.same q = true ∧ trace.Same trace' := by
  have key := mirrors_program G hC hforms
  have htwin := G.twin_of hC
  obtain ⟨q, trace', hq, -⟩ := exists_program_eq_done ctx' pos'
    (htwin.supply (Nat.lt_succ_self _)) (htwin.outside.1 hforms)
  rw [hq] at key
  cases hp : program ctx pos with
  | done p trace after =>
      rw [hp] at key
      exact ⟨p, q, trace, trace', after, _, rfl, hq, key.1, key.2.1⟩
  | failed why trace after =>
      rw [hp] at key
      exact key.elim
  | fault fault =>
      rw [hp] at key
      exact key.elim

end Parse

/-- Two lists of tokens that are paired at the start give the same program, with the same
findings. -/
theorem Body.exists_ofTokens_of_pairing {limit limit' : Int} {src src' : Source}
    (G : Parse.Pairing (Context.ofSource limit src) (Context.ofSource limit' src') C H T)
    (hC : C { rest := ts } { rest := ts' }) :
    ∃ p q notes notes', ofTokens limit src ts = .ok (p, notes) ∧
      ofTokens limit' src' ts' = .ok (q, notes') ∧ p.same q = true ∧
      notes.map Diagnostic.bare = notes'.map Diagnostic.bare := by
  obtain ⟨p, q, trace, trace', after, after', hp, hq, hsame, hnotes⟩ :=
    Parse.exists_program_of_pairing G hC rfl
  exact ⟨p, q, trace.notes, trace'.notes, by rw [ofTokens, hp], by rw [ofTokens, hq], hsame,
    hnotes⟩

end SchemeFront
