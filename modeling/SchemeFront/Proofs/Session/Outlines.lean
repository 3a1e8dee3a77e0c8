import SchemeFront.Proofs.Expr.Restoring
import SchemeFront.Proofs.Session.Programs

set_option autoImplicit false

/-! # Outlines of the programs of a session

The lines of a printed program are the nodes of its walk, indented by depth, and two further lines
for each body, with or without a source, if no name or literal breaks its line
(`Body.isShown_iff`, `Session.outlines_show_nodes`). Without a source, they say all about the
program but where it stands (`Session.same_of_write_eq`).
-/

namespace SchemeFront

variable {P : Lexeme → Prop} {shown : Option Source} {p q : Program}

/-! ## Names and literals of programs -/

/-- `P` holds of the names and literals of the program. -/
def Body.Says (P : Lexeme → Prop) (p : Program) : Prop := ∀ n ∈ p.nodes, n.label.Says P

theorem Node.IsBuilt.says_label {n : Node} (h : n.IsBuilt P) : n.label.Says P := by
  cases n with
  | expr e =>
      cases e with
      | atom s a => exact h
      | _ => trivial
  | definition d => trivial
  | identifier i => exact h

theorem Body.IsBuilt.says_labels (h : p.IsBuilt P) : p.Says P := fun n hn => (h n hn).says_label

/-- The labels of the nodes are those of the rows, but for the further ones of bodies. -/
theorem Body.forall_label_iff (level : Nat) {F : Label → Prop} (hbody : F .body) (htail : F .tail) :
    (∀ n ∈ p.nodes, F n.label) ↔ ∀ r ∈ p.rows level, F r.2.label := by
  rw [← map_snd_nodeRows level, List.forall_mem_map]
  constructor
  · rintro h ⟨k, r⟩ hr
    cases r with
    | node n => exact h (k, n) (List.mem_filterMap.2 ⟨(k, .node n), hr, rfl⟩)
    | body => exact hbody
    | tail => exact htail
  · rintro h ⟨k, n⟩ hn
    obtain ⟨⟨k', r⟩, hr, hnode⟩ := List.mem_filterMap.1 hn
    cases r <;> cases hnode
    exact h _ hr

theorem Body.Says.rows (h : p.Says P) (level : Nat) : ∀ r ∈ p.rows level, r.2.label.Says P :=
  (forall_label_iff level trivial trivial).1 h

/-! ## Lines of printed programs -/

/-- The lines of a program. -/
def Body.lines (shown : Option Source) (p : Program) : List (List Char) :=
  (p.rows 0).map fun r => (Row.line shown r).toList

theorem Body.toList_text (shown : Option Source) (p : Program) :
    (p.text shown).toList = Text.ended (p.lines shown) := by
  rw [text, Text.toList_unlines, outline_eq, List.map_map]
  rfl

section

variable {which : Char → Bool} (hprint : ∀ c, Text.isPrintable c = true → which c = true)

include hprint

/-- The names and literals can be written in characters of a class if the program can. -/
theorem Body.says_iff_lines (shown : Option Source) : p.Says (Lexeme.ShownIn which) ↔
    p.nodes.all Node.isWritable = true ∧ ∀ l ∈ p.lines shown, ∀ c ∈ l, which c = true := by
  have hlines : (∀ l ∈ p.lines shown, ∀ c ∈ l, which c = true) ↔
      ∀ r ∈ p.rows 0, ∀ c ∈ r.2.label.text.toList, which c = true := by
    rw [lines, List.forall_mem_map]
    exact forall₂_congr fun r _ => Row.forall_mem_line_iff hprint
  have hwrite : p.nodes.all Node.isWritable = true ↔
      ∀ r ∈ p.rows 0, r.2.label.isWritable = true := by
    rw [List.all_eq_true, ← forall_label_iff 0 (F := fun l => l.isWritable = true) rfl rfl]
    exact forall₂_congr fun n _ => by rw [Node.isWritable_eq]
  rw [hlines, hwrite, Says, forall_label_iff 0 trivial trivial, ← forall₂_and]
  exact forall₂_congr fun r _ => Label.says_iff hprint

end

/-- What the program says in characters of a class has no newline in it, if the class has none. -/
theorem Body.Says.newline_notMem {which : Char → Bool} (hline : which '\n' = false)
    (hprint : ∀ c, Text.isPrintable c = true → which c = true)
    (h : p.Says (Lexeme.ShownIn which)) (shown : Option Source) :
    ∀ l ∈ p.lines shown, '\n' ∉ l := by
  intro l hl hc
  rw [((Body.says_iff_lines hprint shown).1 h).2 l hl '\n' hc] at hline
  cases hline

theorem Body.write_eq (shown : Option Source) (h : p.nodes.all Node.isWritable = true) :
    p.write shown = .ok (p.text shown) := by
  rw [write, h]
  rfl

/-! ## Lines and nodes -/

/-- The line belongs to a body, and to no node. -/
def Text.isFurther (l : List Char) : Bool :=
  unindented l == "ProcedureBody".toList || unindented l == "tail:".toList

/-- No line both begins a body and comes before a tail expression. -/
theorem Text.countP_isFurther (ls : List (List Char)) : ls.countP isFurther =
    (ls.countP fun l => unindented l == "ProcedureBody".toList) +
      ls.countP fun l => unindented l == "tail:".toList := by
  have hne : "ProcedureBody".toList ≠ "tail:".toList := by decide
  unfold isFurther
  generalize "ProcedureBody".toList = body, "tail:".toList = tail at hne ⊢
  induction ls with
  | nil => rfl
  | cons l ls ih =>
      rw [List.countP_cons, List.countP_cons, List.countP_cons, ih]
      by_cases hbody : unindented l = body
      · simp [hbody, hne]
        omega
      · simp [hbody]
        omega

/-- The lines are those of the nodes, in the order of the walk, and two for each body. -/
structure Body.Follows (shown : Option Source) (p : Program) (ls : List (List Char)) : Prop where
  /-- Each node has one line, which says what there is to say about the node. -/
  nodes : (ls.filter fun l => !Text.isFurther l).map Text.unindented =
    p.nodes.map fun n => (n.entry shown).toList
  bodies : (ls.countP fun l => Text.unindented l == "ProcedureBody".toList) =
    1 + p.nodes.countP Node.isProcedure
  tails : (ls.countP fun l => Text.unindented l == "tail:".toList) =
    1 + p.nodes.countP Node.isProcedure
  /-- The lines of the nodes right below a node are indented more than its own. They are found
  behind those of the nodes before them. -/
  deeper : ∀ i n, p.nodes[i]? = some n → ∀ before m after, n.children = before ++ m :: after →
    p.nodes[i + 1 + (before.flatMap Node.nodes).length]? = some m ∧
    ∃ l l', (ls.filter fun l => !Text.isFurther l)[i]? = some l ∧
      (ls.filter fun l => !Text.isFurther l)[i + 1 + (before.flatMap Node.nodes).length]?
        = some l' ∧
      Text.indentation l < Text.indentation l'

namespace Row

theorem unindented_line (shown : Option Source) (r : Nat × Row) :
    Text.unindented (line shown r).toList = (r.2.entry shown).toList :=
  Text.unindented_indented r.1 (head?_entry shown r.2)

theorem indentation_line (shown : Option Source) (r : Nat × Row) :
    Text.indentation (line shown r).toList = 2 * r.1 :=
  Text.indentation_indented r.1 (head?_entry shown r.2)

theorem isFurther_line (shown : Option Source) (r : Nat × Row) :
    Text.isFurther (line shown r).toList = r.2.node?.isNone := by
  rw [Text.isFurther, unindented_line]
  obtain ⟨level, r⟩ := r
  cases r with
  | node n =>
      obtain ⟨hbody, htail⟩ := n.entry_ne shown
      have hbody : ((n.entry shown).toList == "ProcedureBody".toList) = false :=
        beq_eq_false_iff_ne.2 fun h => hbody (String.toList_inj.1 h)
      have htail : ((n.entry shown).toList == "tail:".toList) = false :=
        beq_eq_false_iff_ne.2 fun h => htail (String.toList_inj.1 h)
      simp only [entry, hbody, htail]
      rfl
  | body => simp [entry, node?]
  | tail => simp [entry, node?]

/-- The lines that are not further ones are those of the nodes. -/
theorem filter_lines (shown : Option Source) (rs : List (Nat × Row)) :
    (rs.map fun r => (line shown r).toList).filter (fun l => !Text.isFurther l) =
      (nodeRows rs).map fun c => (line shown (c.1, node c.2)).toList := by
  induction rs with
  | nil => rfl
  | cons r rs ih =>
      rw [List.map_cons, List.filter_cons, isFurther_line, ih]
      obtain ⟨level, r⟩ := r
      cases r <;> rfl

/-- The lines with a given text are the rows that say it. -/
theorem countP_lines (shown : Option Source) (rs : List (Nat × Row)) {word : String}
    {which : Row → Bool} (h : ∀ r, r.entry shown = word ↔ which r = true) :
    ((rs.map fun r => (line shown r).toList).countP
      fun l => Text.unindented l == word.toList) = count which rs := by
  rw [List.countP_map, count]
  refine List.countP_congr fun r _ => ?_
  simp [unindented_line, String.toList_inj, h]

/-- The row begins a body. -/
def isBody : Row → Bool
  | body => true
  | _ => false

/-- The row comes before a tail expression. -/
def isTail : Row → Bool
  | tail => true
  | _ => false

theorem entry_eq_body_iff (shown : Option Source) (r : Row) :
    r.entry shown = "ProcedureBody" ↔ r.isBody = true := by
  cases r with
  | node n => simp [entry, isBody, (n.entry_ne shown).1]
  | body => simp [entry, isBody]
  | tail => simp [entry, isBody]

theorem entry_eq_tail_iff (shown : Option Source) (r : Row) :
    r.entry shown = "tail:" ↔ r.isTail = true := by
  cases r with
  | node n => simp [entry, isTail, (n.entry_ne shown).2]
  | body => simp [entry, isTail]
  | tail => simp [entry, isTail]

end Row

/-- The lines of any program follow its walk. -/
theorem Body.follows (shown : Option Source) (p : Program) : p.Follows shown (p.lines shown) := by
  have hnodes := Row.filter_lines shown (p.rows 0)
  constructor
  · rw [lines, hnodes, ← map_snd_nodeRows 0, List.map_map, List.map_map]
    exact List.map_congr_left fun c _ => Row.unindented_line shown _
  · rw [lines, Row.countP_lines shown _ (Row.entry_eq_body_iff shown)]
    exact count_rows (fun _ => rfl) rfl 0 p
  · rw [lines, Row.countP_lines shown _ (Row.entry_eq_tail_iff shown)]
    exact count_rows (fun _ => rfl) rfl 0 p
  · intro i n hi before m after hsplit
    -- A place in the walk is one among the rows of nodes, where the levels are.
    rw [← map_snd_nodeRows 0, List.getElem?_map, Option.map_eq_some_iff] at hi
    obtain ⟨⟨level, n⟩, hrow, rfl⟩ := hi
    obtain ⟨deeper, hdeeper, hm⟩ := p.deepens 0 i level n hrow before m after hsplit
    refine ⟨?_, _, _, by rw [lines, hnodes, List.getElem?_map, hrow]; rfl,
      by rw [lines, hnodes, List.getElem?_map, hm]; rfl, ?_⟩
    · rw [← map_snd_nodeRows 0, List.getElem?_map, hm]
      rfl
    · rw [Row.indentation_line, Row.indentation_line]
      omega

/-- Lines that follow a program are as many as its own. -/
theorem Body.Follows.length_eq {ls : List (List Char)} (h : p.Follows shown ls) :
    ls.length = (p.lines shown).length := by
  have count : ∀ {ls : List (List Char)}, p.Follows shown ls →
      ls.length = p.nodes.length + 2 * (1 + p.nodes.countP Node.isProcedure) := by
    intro ls h
    have hnodes := congrArg List.length h.nodes
    rw [List.length_map, List.length_map, ← List.countP_eq_length_filter] at hnodes
    have hlength : ls.length = _ := List.length_eq_countP_add_countP Text.isFurther
    rw [Text.countP_isFurther, h.bodies, h.tails] at hlength
    simp only [Bool.not_eq_true, Bool.decide_eq_false] at hlength
    omega
  rw [count h, count (p.follows shown)]

/-! ## Outlines -/

/-- The program is printed on lines of characters of a class that follow its walk. -/
def Body.IsShown (which : Char → Bool) (shown : Option Source) (p : Program) : Prop :=
  ∃ text ls, p.write shown = .ok text ∧ Source.lines text.toList = ls ++ [[]] ∧
    (∀ l ∈ ls, ∀ c ∈ l, which c = true) ∧ p.Follows shown ls

/-- A program is printed on lines that follow its walk if and only if its literals can be displayed
and no name or literal breaks its line. -/
theorem Body.isShown_iff {which : Char → Bool} (hline : which '\n' = false)
    (hprint : ∀ c, Text.isPrintable c = true → which c = true) (shown : Option Source) :
    p.IsShown which shown ↔ p.Says (Lexeme.ShownIn which) := by
  constructor
  · rintro ⟨text, ls, hwrite, hlines, hchars, hfollows⟩
    have hall : p.nodes.all Node.isWritable = true := by
      by_contra hnone
      rw [write, writeIf, if_neg hnone] at hwrite
      cases hwrite
    obtain rfl : p.text shown = text := Except.ok.inj ((write_eq shown hall).symm.trans hwrite)
    -- There are as many newlines as lines, so that none is left for the inside of a line.
    have hnone : ∀ l ∈ p.lines shown, '\n' ∉ l := by
      have hcount := congrArg List.length hlines
      rw [toList_text, Source.length_lines, Text.count_ended, List.length_append,
        hfollows.length_eq] at hcount
      have hzero : (p.lines shown).flatten.count '\n' = 0 := by
        simp only [List.length_singleton] at hcount
        omega
      intro l hl hc
      exact List.count_eq_zero.1 hzero (List.mem_flatten.2 ⟨l, hl, hc⟩)
    rw [toList_text, Source.lines_ended hnone, List.append_left_inj] at hlines
    exact (says_iff_lines hprint shown).2 ⟨hall, hlines ▸ hchars⟩
  · intro h
    obtain ⟨hall, hchars⟩ := (says_iff_lines hprint shown).1 h
    refine ⟨_, p.lines shown, write_eq shown hall, ?_, hchars, p.follows shown⟩
    rw [toList_text]
    exact Source.lines_ended (h.newline_notMem hline hprint shown)

section

variable {which : Char → Bool} (hprint : ∀ c, Text.isPrintable c = true → which c = true)

include hprint

theorem Lexeme.shownIn_keyword (k : Keyword) : ShownIn which (.keyword k) :=
  Spelling.StandsAlone.shownIn (s := .keyword k) hprint trivial rfl

/-- The known rules make tokens that are shown in printable characters. -/
theorem Transformer.keeps_shownIn_of_mem_known {rule : Transformer} (h : rule ∈ known) :
    rule.Keeps (Datum.Says (Lexeme.ShownIn which)) := by
  refine keeps_of_mem_known (Datum.hereditary_of_keywords (Lexeme.shownIn_keyword hprint)) ?_ h
  intro l hl s
  refine Datum.says_leaf ?_ s
  have hascii : ∀ {cs : List Char},
      cs.all (fun c => decide (0x20 ≤ c.toNat) && decide (c.toNat ≤ 0x7E)) = true →
        ∀ c ∈ cs, which c = true := fun h c hc => hprint c (Text.isPrintable_of_mem_ascii hc h)
  simp only [made, List.mem_cons, List.not_mem_nil, or_false] at hl
  rcases hl with rfl | rfl | rfl | rfl
  · exact Lexeme.shownIn_keyword hprint _
  · exact ⟨by decide +kernel, hascii (by decide)⟩
  · exact ⟨rfl, hascii (by decide)⟩
  · exact ⟨by decide +kernel, hascii (by decide)⟩

theorem Transformer.keeps_shownIn_of_mem_builtin {rule : Transformer} (h : rule ∈ builtin) :
    rule.Keeps (Datum.Says (Lexeme.ShownIn which)) :=
  keeps_shownIn_of_mem_known hprint (List.mem_of_mem_take (i := 1) h)

end

/-- A rule that puts a name of two lines in the place of everything. -/
def Transformer.split : Transformer :=
  ofFunction "Split" fun d => .leaf (.atom (.ident "x\ny")) d.span

namespace Session

/-- **Printing and walking agree.** Let `which` be a class of characters that has all printable ones
and not the newline: all characters but the newline, or the printable ones only. With a source or
without one, a program is printed on lines of such characters that are the nodes of the walk, one
for each and in the same order, and two further lines for each body, a line indented more than that
of the node right above, if and only if its literals can be displayed and all characters of names
and displays are in the class. This is so for what a session returns, and for what is made of tokens
as they are, if the tokens say such things only and the rules keep it so. Texts say nothing else. -/
theorem outlines_show_nodes {which : Char → Bool} (hline : which '\n' = false)
    (hprint : ∀ c, Text.isPrintable c = true → which c = true) (shown : Option Source) :
    (∀ p : Program, p.IsShown which shown ↔ p.Says (Lexeme.ShownIn which)) ∧
    ∀ s : Session, (∀ rule ∈ s.registry, rule.Keeps (Datum.Says (Lexeme.ShownIn which))) →
      (∀ src p, s.Returns src p → p.IsShown which shown) ∧
      ∀ src ts, (∀ t ∈ ts, t.lexeme.ShownIn which) →
        (∀ p, s.ReturnsFor src ts p → p.IsShown which shown) ∧
        ∀ limit p notes, Body.ofTokens limit src ts = .ok (p, notes) → p.IsShown which shown := by
  have isShown : ∀ {p : Program}, p.IsBuilt (Lexeme.ShownIn which) → p.IsShown which shown :=
    fun h => (Body.isShown_iff hline hprint shown).2 h.says_labels
  have hkey := Lexeme.shownIn_keyword hprint
  refine ⟨fun p => Body.isShown_iff hline hprint shown, fun s hrules => ⟨?_, ?_⟩⟩
  · intro src p h
    exact isShown (h.isBuilt hkey hrules fun l => Lexed.shownIn hprint)
  · intro src ts hts
    constructor
    · intro p h
      exact isShown (h.isBuilt hkey hrules hts)
    · intro limit p notes h
      exact isShown (Body.isBuilt_of_ofTokens hts h)

/-- A sequence over two lines, and a list that is never closed. -/
theorem outlines_show_nodes_sequence :
    ∃ p : Program, Text.isPrintable '\n' = false ∧
      (∀ rule ∈ Transformer.builtin, rule.Keeps (Datum.Says (Lexeme.ShownIn Text.isPrintable))) ∧
      Returns {} ⟨"a.scm", "(begin\tx\n1.50) (f".toList⟩ p ∧
      p.IsShown Text.isPrintable (some ⟨"a.scm", "(begin\tx\n1.50) (f".toList⟩) ∧
      (p.lines (some ⟨"a.scm", "(begin\tx\n1.50) (f".toList⟩))[2]? =
        some "    Procedure  'begin\\tx...'".toList := by
  have hrules : ∀ rule ∈ Transformer.builtin,
      rule.Keeps (Datum.Says (Lexeme.ShownIn Text.isPrintable)) :=
    fun rule => Transformer.keeps_shownIn_of_mem_builtin fun c => id
  have hline : ((answer (parseLenient ⟨"a.scm", "(begin\tx\n1.50) (f".toList⟩) {}).toOption.bind
      Prod.fst).bind (fun p => (p.lines (some ⟨"a.scm", "(begin\tx\n1.50) (f".toList⟩))[2]?) =
        some "    Procedure  'begin\\tx...'".toList := by
    decide +kernel
  obtain ⟨p, hp, hline⟩ := Option.bind_eq_some_iff.1 hline
  have hreturns : Returns {} ⟨"a.scm", "(begin\tx\n1.50) (f".toList⟩ p :=
    .inr (exists_answer_of_toOption hp)
  exact ⟨p, Text.not_isPrintable_newline, hrules, hreturns,
    ((outlines_show_nodes Text.not_isPrintable_newline (fun c => id) _).2 {} hrules).1 _ p hreturns,
    hline⟩

/-- A name of two lines breaks the line of its node. -/
theorem not_isShown_split : ∃ p : Program,
    Returns { registry := [.split] } ⟨"a.scm", "x".toList⟩ p ∧ p.nodes.length = 1 ∧
      (Source.lines (p.text none).toList).length = 5 ∧ ¬ p.IsShown (· != '\n') none := by
  have hprint : ∀ c, Text.isPrintable c = true → (c != '\n') = true := by
    intro c hc
    rw [bne_iff_ne]
    rintro rfl
    rw [Text.not_isPrintable_newline] at hc
    cases hc
  refine ⟨⟨[], [], .atom ⟨"a.scm", 0, 1, by decide⟩ (.ident "x\ny")⟩, .inr ⟨none, rfl⟩, rfl,
    by decide +kernel, ?_⟩
  rw [Body.isShown_iff rfl hprint]
  intro hsays
  have hname := hsays _ List.mem_cons_self
  cases hname.chars '\n' (by decide)

end Session

/-! ## Programs from their lines -/

/-- A line shows the level of its row, and without a source its label. -/
theorem Row.mark_eq_of_line_eq {r r' : Nat × Row} (hr : r.2.label.Says Lexeme.IsReread)
    (hr' : r'.2.label.Says Lexeme.IsReread)
    (h : (line none r).toList = (line none r').toList) : mark r = mark r' := by
  have hlevel := congrArg Text.indentation h
  have hentry := congrArg Text.unindented h
  rw [indentation_line, indentation_line] at hlevel
  rw [unindented_line, unindented_line, String.toList_inj, entry_none, entry_none] at hentry
  exact Prod.ext (Nat.eq_of_mul_eq_mul_left (by decide) hlevel)
    (Label.text_injective hr hr' hentry)

theorem Row.map_mark_eq {rs rs' : List (Nat × Row)}
    (hrs : ∀ r ∈ rs, r.2.label.Says Lexeme.IsReread)
    (hrs' : ∀ r ∈ rs', r.2.label.Says Lexeme.IsReread)
    (h : (rs.map fun r => (line none r).toList) = rs'.map fun r => (line none r).toList) :
    rs.map mark = rs'.map mark := by
  induction rs generalizing rs' with
  | nil =>
      cases rs' with
      | nil => rfl
      | cons r' rs' => cases h
  | cons r rs ih =>
      cases rs' with
      | nil => cases h
      | cons r' rs' =>
          rw [List.forall_mem_cons] at hrs hrs'
          obtain ⟨hline, hlines⟩ := List.cons.inj h
          rw [List.map_cons, List.map_cons, mark_eq_of_line_eq hrs.1 hrs'.1 hline,
            ih hrs.2 hrs'.2 hlines]

/-- Programs with the same lines say the same. -/
theorem Body.same_of_lines_eq (hp : p.IsBuilt Lexeme.IsReread) (hq : q.IsBuilt Lexeme.IsReread)
    (h : p.lines none = q.lines none) : p.same q = true := by
  have hmarks := Row.map_mark_eq (hp.says_labels.rows 0) (hq.says_labels.rows 0) h
  have hends : Row.Stops 0 [] := nofun
  refine (same_of_marks p q 0 [] [] ?_ hends hends).1
  rw [hmarks]

/-- The rule for sequences makes no tokens that have to be read. -/
theorem Transformer.keeps_isReread_of_mem_builtin {rule : Transformer} (h : rule ∈ builtin) :
    rule.Keeps (Datum.Says Lexeme.IsReread) := by
  obtain rfl := List.mem_singleton.1 h
  exact keeps_sequence (Datum.hereditary_of_keywords fun _ => trivial) (Datum.says_leaf trivial)

namespace Session

/-- With the rules that are always there, names and literals are those of a text. -/
theorem Returns.isBuilt_of_builtin {s : Session} {src : Source}
    (hs : s.registry = Transformer.builtin) (h : s.Returns src p) :
    p.Says (Lexeme.ShownIn Text.isPrintable) ∧ p.IsBuilt Lexeme.IsReread := by
  have hshown : ∀ rule ∈ s.registry,
      rule.Keeps (Datum.Says (Lexeme.ShownIn Text.isPrintable)) := by
    rw [hs]
    exact fun rule => Transformer.keeps_shownIn_of_mem_builtin fun c => id
  have hread : ∀ rule ∈ s.registry, rule.Keeps (Datum.Says Lexeme.IsReread) := by
    rw [hs]
    exact fun rule => Transformer.keeps_isReread_of_mem_builtin
  have hkey : ∀ k, Lexeme.ShownIn Text.isPrintable (.keyword k) :=
    Lexeme.shownIn_keyword fun c => id
  exact ⟨(h.isBuilt hkey hshown fun l => Lexed.shownIn fun c => id).says_labels,
    h.isBuilt (fun _ => trivial) hread fun l => Lexed.isReread⟩

/-- **Nothing but spans is lost in print.** If the programs of two recovering calls are printed
alike without a source, they say the same, whatever the sources are and whatever is wrong with
them. -/
theorem same_of_write_eq {s s' : Session} {src src' : Source} {report? report?' : Option Report}
    (hs : s.registry = Transformer.builtin) (hs' : s'.registry = Transformer.builtin)
    (hp : answer (parseLenient src) s = .ok (some p, report?))
    (hq : answer (parseLenient src') s' = .ok (some q, report?'))
    (h : p.write none = q.write none) : p.same q = true := by
  obtain ⟨hpshown, hpread⟩ := Returns.isBuilt_of_builtin hs (.inr ⟨report?, hp⟩)
  obtain ⟨hqshown, hqread⟩ := Returns.isBuilt_of_builtin hs' (.inr ⟨report?', hq⟩)
  have hpwrite := ((Body.says_iff_lines (fun c => id) none).1 hpshown).1
  have hqwrite := ((Body.says_iff_lines (fun c => id) none).1 hqshown).1
  rw [Body.write_eq none hpwrite, Body.write_eq none hqwrite] at h
  have htext := congrArg String.toList (Except.ok.inj h)
  rw [Body.toList_text, Body.toList_text] at htext
  -- As no line is broken, the lines can be told from the text.
  exact Body.same_of_lines_eq hpread hqread
    (Source.ended_inj (hpshown.newline_notMem Text.not_isPrintable_newline (fun c => id) none)
      (hqshown.newline_notMem Text.not_isPrintable_newline (fun c => id) none) htext)

/-- The two ways to define a procedure, and lists that are never closed. -/
theorem same_of_write_eq_definition :
    ∃ p q report? report?',
      answer (parseLenient ⟨"a.scm", "(define (f x) +01.50) (g".toList⟩) {} =
        .ok (some p, report?) ∧
      answer (parseLenient ⟨"b.scm", "(define f (lambda (x) 1.50)) (h y".toList⟩) {} =
        .ok (some q, report?') ∧
      p.write none = q.write none ∧ p.same q = true := by
  have hwrite : ((answer (parseLenient ⟨"a.scm", "(define (f x) +01.50) (g".toList⟩)
      {}).toOption.bind Prod.fst).bind (fun p =>
        ((answer (parseLenient ⟨"b.scm", "(define f (lambda (x) 1.50)) (h y".toList⟩)
          {}).toOption.bind Prod.fst).map fun q => decide (p.write none = q.write none)) =
            some true := by
    decide +kernel
  obtain ⟨p, hp, hwrite⟩ := Option.bind_eq_some_iff.1 hwrite
  obtain ⟨q, hq, hwrite⟩ := Option.map_eq_some_iff.1 hwrite
  obtain ⟨report?, hp⟩ := exists_answer_of_toOption hp
  obtain ⟨report?', hq⟩ := exists_answer_of_toOption hq
  have hwrite := of_decide_eq_true hwrite
  exact ⟨p, q, report?, report?', hp, hq, hwrite, same_of_write_eq rfl rfl hp hq hwrite⟩

end Session

end SchemeFront
