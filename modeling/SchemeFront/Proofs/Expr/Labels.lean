import SchemeFront.Proofs.Expr.Rows
import SchemeFront.Proofs.Lexer.Showing
import SchemeFront.Proofs.Text.Lines

set_option autoImplicit false

/-! # Labels of lines

Without a source, the line of a row says its label (`Label`): the kind of the node, with the name or
the literal if it is one, and what else is needed to know its parts. If literals are read back from
their displays (`Lexeme.IsReread`), equal texts have equal labels (`Label.text_injective`). What
else is in a line, an excerpt of a source too, is made of printable characters, so only names and
literals can put others into it (`Label.says_iff`, `Row.forall_mem_line_iff`).
-/

namespace SchemeFront

/-- What the line of a row says without a source. -/
inductive Label where
  | identifier (name : String)
  | atom (value : Atom)
  | call
  | procedure (variadic : Bool)
  | conditional (hasAlter : Bool)
  | assignment
  | error
  | definition
  | body
  | tail

/-- The label as it is shown. -/
def Label.text : Label → String
  | identifier name => "Identifier(" ++ name ++ ")"
  | atom a => "Primitive(" ++ a.kind ++ " " ++ a.text ++ ")"
  | call => "ProcedureCall"
  | procedure variadic => if variadic then "Procedure(variadic)" else "Procedure"
  | conditional hasAlter => if hasAlter then "Conditional" else "Conditional(no alternative)"
  | assignment => "Assignment"
  | error => "ErrorExpression"
  | definition => "Definition"
  | body => "ProcedureBody"
  | tail => "tail:"

/-- The label of a node. -/
def Node.label : Node → Label
  | identifier i => .identifier i.name
  | definition _ => .definition
  | expr (.call _ _ _) => .call
  | expr (.atom _ a) => .atom a
  | expr (.procedure _ variadic _ _) => .procedure variadic
  | expr (.conditional _ _ _ alter) => .conditional alter.isSome
  | expr (.assignment _ _ _) => .assignment
  | expr (.error _) => .error

/-- The label of a row. -/
def Row.label : Row → Label
  | node n => n.label
  | body => .body
  | tail => .tail

theorem Node.caption_eq (n : Node) : n.caption = n.label.text := by
  cases n with
  | expr e => cases e <;> rfl
  | definition d => rfl
  | identifier i => rfl

/-- The line of a row without a source. -/
theorem Row.entry_none (r : Row) : r.entry none = r.label.text := by
  cases r with
  | node n => exact n.caption_eq
  | body => rfl
  | tail => rfl

/-- With a source, an excerpt follows the label of a node. -/
theorem Node.entry_eq (src : Option Source) (n : Node) :
    ∃ more, n.entry src = n.label.text ++ more ∧
      (more = "" ∨ ∃ text, more = "  " ++ String.ofList (Text.quoted text)) := by
  rw [← caption_eq]
  cases src with
  | none => exact ⟨"", String.append_empty.symm, .inl rfl⟩
  | some src => exact ⟨_, String.append_assoc, .inr ⟨_, rfl⟩⟩

/-! ## From labels to nodes -/

/-- `P` holds of the name or the literal in the label. -/
def Label.Says (P : Lexeme → Prop) : Label → Prop
  | identifier name => P (.atom (.ident name))
  | atom a => P (.atom a)
  | _ => True

/-- **The line says which node it is.** -/
theorem Label.text_injective {l m : Label} (hl : l.Says Lexeme.IsReread)
    (hm : m.Says Lexeme.IsReread) (h : l.text = m.text) : l = m := by
  replace h := congrArg String.toList h
  -- Labels of two kinds differ in one of the first letters.
  rcases l with name | a | _ | (_ | _) | (_ | _) | _ | _ | _ | _ | _ <;>
    rcases m with name' | b | _ | (_ | _) | (_ | _) | _ | _ | _ | _ | _ <;>
    first | rfl | (simp [text] at h; done) | skip
  · have hname : name.toList = name'.toList := by simpa [text] using h
    exact congrArg identifier (String.toList_inj.1 hname)
  · have hparts : (a.kind.toList ++ ' ' :: a.text.toList) ++ [')'] =
        (b.kind.toList ++ ' ' :: b.text.toList) ++ [')'] := by simpa [text] using h
    exact congrArg atom (Atom.eq_of_display_eq hl hm (List.append_cancel_right hparts))

/-! ## One line for each row -/

/-- The line of a node does not say what a further line of a body says. -/
theorem Node.entry_ne (src : Option Source) (n : Node) :
    n.entry src ≠ "ProcedureBody" ∧ n.entry src ≠ "tail:" := by
  obtain ⟨more, hentry, hmore⟩ := n.entry_eq src
  rw [hentry, ne_eq, ne_eq, ← String.toList_inj, ← String.toList_inj, String.toList_append]
  have hblank : more.toList = [] ∨ ∃ cs, more.toList = ' ' :: cs := by
    rcases hmore with rfl | ⟨text, rfl⟩
    · exact .inl rfl
    · exact .inr ⟨_, by rw [String.toList_append]; rfl⟩
  generalize more.toList = cs at hblank
  cases n with
  | identifier i => simp [label, Label.text]
  | definition d => simp [label, Label.text]
  | expr e =>
      cases e with
      | procedure s variadic params body =>
          -- Without an excerpt a procedure says less than a body, and a blank comes before one.
          rcases hblank with rfl | ⟨cs, rfl⟩ <;> cases variadic <;> simp [label, Label.text]
      | conditional s test conseq alter => cases alter <;> simp [label, Label.text]
      | _ => simp [label, Label.text]

theorem Label.exists_text_eq_cons (l : Label) : ∃ c cs, l.text.toList = c :: cs ∧ c ≠ ' ' := by
  rcases l with name | a | _ | (_ | _) | (_ | _) | _ | _ | _ | _ | _ <;> simp [text]

/-- A line begins, behind its indentation, with a letter. -/
theorem Row.head?_entry (src : Option Source) (r : Row) :
    (r.entry src).toList.head? ≠ some ' ' := by
  cases r with
  | node n =>
      obtain ⟨more, hentry, -⟩ := n.entry_eq src
      obtain ⟨c, cs, hlabel, hc⟩ := n.label.exists_text_eq_cons
      rw [entry, hentry, String.toList_append, hlabel]
      simpa using hc
  | body => simp [entry]
  | tail => simp [entry]

/-! ## Characters of lines -/

/-- The literal in the label can be written. -/
def Label.isWritable : Label → Bool
  | atom a => a.isWritable
  | _ => true

theorem Node.isWritable_eq (n : Node) : n.isWritable = n.label.isWritable := by
  cases n with
  | expr e => cases e <;> rfl
  | _ => rfl

/-- Around the label of its row, there are only printable characters in a line. -/
theorem Row.exists_toList_line (src : Option Source) (r : Nat × Row) :
    ∃ more, (line src r).toList = List.replicate (2 * r.1) ' ' ++ (r.2.label.text.toList ++ more) ∧
      ∀ c ∈ more, Text.isPrintable c = true := by
  obtain ⟨level, r⟩ := r
  rw [line, Text.toList_indented]
  cases r with
  | node n =>
      obtain ⟨more, hentry, hmore⟩ := n.entry_eq src
      refine ⟨more.toList, by rw [entry, hentry, String.toList_append]; rfl, ?_⟩
      rcases hmore with rfl | ⟨text, rfl⟩
      · nofun
      · intro c hc
        rw [String.toList_append, List.mem_append] at hc
        rcases hc with hc | hc
        · exact Text.isPrintable_of_mem_ascii hc (by decide)
        · exact Text.isPrintable_of_mem_quoted (String.toList_ofList ▸ hc)
  | body => exact ⟨[], by rw [List.append_nil]; rfl, nofun⟩
  | tail => exact ⟨[], by rw [List.append_nil]; rfl, nofun⟩

section

variable {which : Char → Bool} (hprint : ∀ c, Text.isPrintable c = true → which c = true)

include hprint

/-- A label is made of characters of a class if its name or literal is. -/
theorem Label.says_iff {l : Label} : l.Says (Lexeme.ShownIn which) ↔
    l.isWritable = true ∧ ∀ c ∈ l.text.toList, which c = true := by
  have hascii : ∀ {cs : List Char},
      cs.all (fun c => decide (0x20 ≤ c.toNat) && decide (c.toNat ≤ 0x7E)) = true →
        ∀ c ∈ cs, which c = true := fun h c hc => hprint c (Text.isPrintable_of_mem_ascii hc h)
  cases l with
  | identifier name =>
      simp only [text, String.toList_append, List.forall_mem_append]
      constructor
      · intro h
        exact ⟨rfl, ⟨hascii (by decide), h.chars⟩, hascii (by decide)⟩
      · rintro ⟨-, ⟨-, hname⟩, -⟩
        exact ⟨rfl, hname⟩
  | atom a =>
      simp only [text, String.toList_append, List.forall_mem_append]
      constructor
      · intro h
        refine ⟨h.isWritable, ⟨⟨⟨hascii (by decide), hascii ?_⟩, hascii (by decide)⟩, h.chars⟩,
          hascii (by decide)⟩
        cases a <;> simp only [Atom.kind] <;> decide
      · rintro ⟨hwrite, ⟨-, hchars⟩, -⟩
        exact ⟨hwrite, hchars⟩
  | procedure variadic => simpa [Says, isWritable] using hascii (by cases variadic <;> decide)
  | conditional hasAlter => simpa [Says, isWritable] using hascii (by cases hasAlter <;> decide)
  | _ => exact ⟨fun _ => ⟨rfl, hascii (by decide)⟩, fun _ => trivial⟩

/-- A line is made of characters of a class if its label is. -/
theorem Row.forall_mem_line_iff {src : Option Source} {r : Nat × Row} :
    (∀ c ∈ (line src r).toList, which c = true) ↔
      ∀ c ∈ r.2.label.text.toList, which c = true := by
  obtain ⟨more, hline, hmore⟩ := exists_toList_line src r
  have hblank : which ' ' = true := hprint ' ' (Text.isPrintable_of_ascii (by decide) (by decide))
  rw [hline, List.forall_mem_append, List.forall_mem_append]
  constructor
  · rintro ⟨-, hlabel, -⟩
    exact hlabel
  · intro hlabel
    refine ⟨fun c hc => ?_, hlabel, fun c hc => hprint c (hmore c hc)⟩
    rw [List.eq_of_mem_replicate hc]
    exact hblank

end

end SchemeFront
