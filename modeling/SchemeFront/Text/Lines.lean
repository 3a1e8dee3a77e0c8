set_option autoImplicit false

/-! # Texts made of lines

`unlines` ends each line with a newline; `indented` shifts a line to the right.
-/

namespace SchemeFront.Text

/-- The lines, each ended by a newline, as one text. -/
def unlines (lines : List String) : String :=
  String.ofList (lines.flatMap fun l => l.toList ++ ['\n'])

/-- `count` blanks. -/
def blanks (count : Nat) : String := String.ofList (List.replicate count ' ')

/-- A line, indented by two blanks a level. -/
def indented (level : Nat) (line : String) : String := blanks (2 * level) ++ line

/-- The texts with `separator` between any two of them. -/
def joined (separator : String) : List String → String
  | [] => ""
  | [s] => s
  | s :: t :: ts => s ++ separator ++ joined separator (t :: ts)

end SchemeFront.Text
