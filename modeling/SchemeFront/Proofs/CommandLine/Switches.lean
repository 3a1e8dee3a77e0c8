import Mathlib.Data.List.Forall2
import SchemeFront.CommandLine.Run

set_option autoImplicit false

/-! # Command lines of switches

A switch is a flag that says what to show, or how. A command line that gives the name of one file
and spells out switches, in any order, before the name and behind it, is read as options in which
just those switches are on (`CommandLine.start_of_switches`).
-/

namespace SchemeFront.CommandLine

variable {f : Flag} {fs gs : List Flag} {args before behind : List String} {arg name : String}

/-! ## Spellings -/

/-- The argument is the long or the short spelling of the flag. -/
def Flag.Spells (f : Flag) (arg : String) : Prop :=
  arg = f.long ∨ ∃ c, f.letter? = some c ∧ arg = String.ofList ['-', c]

/-- The flag does not end the run at once. -/
def Flag.IsSwitch (f : Flag) : Prop := f ≠ .help ∧ f ≠ .version

/-- The arguments spell out the given switches. -/
def SpellOut (fs : List Flag) (args : List String) : Prop :=
  List.Forall₂ Flag.Spells fs args ∧ ∀ f ∈ fs, f.IsSwitch

/-- A file name that cannot be taken for a flag. -/
def IsFileName (name : String) : Prop := name.toList.head? ≠ some '-'

/-! ## Words -/

/-- A spelling is read as the flag. -/
theorem ofArgument_of_spells (h : f.Spells arg) : Word.ofArgument arg = .ok (.single f none) := by
  rcases h with rfl | ⟨c, hc, rfl⟩
  · cases f <;> rfl
  · cases f <;> cases hc <;> rfl

/-- No flag is spelled like the separator. -/
theorem ne_separator_of_spells (h : f.Spells arg) : arg ≠ "--" := by
  rcases h with rfl | ⟨c, hc, rfl⟩
  · cases f <;> decide
  · cases f <;> cases hc <;> decide

theorem ofArgument_of_isFileName (h : IsFileName name) :
    Word.ofArgument name = .ok (.plain name) := by
  unfold IsFileName at h
  unfold Word.ofArgument
  split
  · rename_i heq
    simp [heq] at h
  · rename_i heq
    simp [heq] at h
  · rfl

theorem ne_separator_of_isFileName (h : IsFileName name) : name ≠ "--" := by
  rintro rfl
  exact h rfl

/-- Spellings are read as flags, in front of whatever follows. -/
theorem ofArguments_append (h : List.Forall₂ Flag.Spells fs before) (behind : List String) :
    Word.ofArguments (before ++ behind) =
      (Word.ofArguments behind).map (fs.map (.single · none) ++ ·) := by
  induction h with
  | nil =>
      rw [List.nil_append]
      cases Word.ofArguments behind <;> rfl
  | cons hf hmore ih =>
      rw [List.cons_append, Word.ofArguments, if_neg (ne_separator_of_spells hf),
        ofArgument_of_spells hf, ih]
      cases Word.ofArguments behind <;> rfl

/-- The words of switches around a file name. -/
theorem ofArguments_switches (hfs : List.Forall₂ Flag.Spells fs before)
    (hgs : List.Forall₂ Flag.Spells gs behind) (hname : IsFileName name) :
    Word.ofArguments (before ++ name :: behind) =
      .ok (fs.map (.single · none) ++ .plain name :: gs.map (.single · none)) := by
  have hbehind : Word.ofArguments behind = .ok (gs.map (.single · none)) := by
    have key := ofArguments_append hgs []
    rw [List.append_nil] at key
    rw [key, Word.ofArguments]
    simp [Except.map]
  rw [ofArguments_append hfs, Word.ofArguments, if_neg (ne_separator_of_isFileName hname),
    ofArgument_of_isFileName hname, hbehind]
  rfl

/-! ## Effects -/

/-- The options with the given switches on. -/
def Options.on (o : Options) (fs : List Flag) : Options where
  file := o.file
  tokens := o.tokens || decide (.tokens ∈ fs)
  data := o.data || decide (.data ∈ fs)
  plain := o.plain || decide (.plain ∈ fs)
  debug := o.debug || decide (.debug ∈ fs)

theorem Options.on_nil (o : Options) : o.on [] = o := by
  simp [on]

theorem Options.on_append (o : Options) (fs gs : List Flag) :
    (o.on fs).on gs = o.on (fs ++ gs) := by
  simp [on, Bool.or_assoc]

/-- A switch is turned on. -/
theorem set_of_isSwitch (p : Progress) (h : f.IsSwitch) :
    p.set f = .ok { p with options := p.options.on [f] } := by
  obtain ⟨hhelp, hversion⟩ := h
  cases f
  case help => contradiction
  case version => contradiction
  all_goals simp [Progress.set, Options.on]

/-- Switches are turned on, whatever follows. -/
theorem follow_switches (p : Progress) (h : ∀ f ∈ fs, f.IsSwitch) (words : List Word) :
    p.follow (fs.map (.single · none) ++ words) =
      ({ p with options := p.options.on fs } : Progress).follow words := by
  induction fs generalizing p with
  | nil => rw [List.map_nil, List.nil_append, Options.on_nil]
  | cons f fs ih =>
      rw [List.forall_mem_cons] at h
      rw [List.map_cons, List.cons_append, Progress.follow, Progress.useFlag,
        set_of_isSwitch p h.1]
      show Progress.follow { p with options := p.options.on [f] } _ = _
      rw [ih _ h.2, Options.on_append]
      rfl

/-- The first word that is no flag is the file. -/
theorem follow_plain (p : Progress) (hfile : p.file = none) (name : String) (fs : List Flag) :
    p.follow (.plain name :: fs.map (.single · none)) =
      ({ p with file := some name } : Progress).follow (fs.map (.single · none)) := by
  cases fs <;> simp [Progress.follow, hfile]

/-- **Switches around a file name turn on what they are for**, and nothing else matters. -/
theorem start_of_switches (hfs : SpellOut fs before) (hgs : SpellOut gs behind)
    (hname : IsFileName name) :
    start (before ++ name :: behind) = .ok (({ file := name } : Options).on (fs ++ gs)) := by
  have hfollow : ({} : Progress).follow
      (fs.map (.single · none) ++ .plain name :: gs.map (.single · none)) =
        .ok { file := some name, options := ({ file := "" } : Options).on (fs ++ gs) } := by
    have hlast := follow_switches
      { file := some name, options := ({ file := "" } : Options).on fs } hgs.2 []
    rw [List.append_nil] at hlast
    rw [follow_switches _ hfs.2, follow_plain _ rfl, hlast, Progress.follow, Options.on_append]
  rw [start, Options.ofArguments, ofArguments_switches hfs.1 hgs.1 hname]
  simp only [hfollow]
  rfl

end SchemeFront.CommandLine
