import SchemeFront.Text.Lines
import SchemeFront.Text.Numeral

set_option autoImplicit false

/-! # Options

`Options.ofArguments` reads the arguments of the command line: flags and the name of one file, in
any order. Long flags may be cut short as long as one flag is meant, short ones may be joined
behind one hyphen, and behind `--` there are no flags. Every argument is first sorted into a
`Word`, which is where an ambiguous flag shows; then the words take effect from left to right.
-/

namespace SchemeFront.CommandLine

/-! ## Flags -/

/-- The flags. -/
inductive Flag where
  | help
  | tokens
  | data
  | plain
  | debug
  | version
deriving DecidableEq

namespace Flag

/-- All flags, in the order in which they are listed. -/
def all : List Flag := [help, tokens, data, plain, debug, version]

/-- The long spelling. -/
def long : Flag → String
  | help => "--help"
  | tokens => "--token"
  | data => "--datum"
  | plain => "--non-colorful"
  | debug => "--debug"
  | version => "--version"

/-- The letter of the short spelling. -/
def letter? : Flag → Option Char
  | help => some 'h'
  | tokens => some 't'
  | data => some 'd'
  | plain => some 'n'
  | debug | version => none

/-- Both spellings. -/
def name (f : Flag) : String :=
  match f.letter? with
  | some c => String.ofList ['-', c, '/'] ++ f.long
  | none => f.long

/-- The flag with the given letter. -/
def ofLetter? (c : Char) : Option Flag := all.find? fun f => f.letter? == some c

/-- The flag with the given long spelling. -/
def ofLong? (word : List Char) : Option Flag := all.find? fun f => f.long.toList == word

/-- The flags whose long spelling begins like `word`. -/
def beginningWith (word : List Char) : List Flag :=
  all.filter fun f => word.isPrefixOf f.long.toList

end Flag

/-! ## Results -/

/-- How a command line can be wrong. -/
inductive Misuse where
  /-- The flag could be several. -/
  | ambiguous (word : String) (flags : List Flag)
  /-- A value was given to a flag, which takes none. -/
  | needlessValue (flag : Flag) (value : List Char)
  /-- There is no file name. -/
  | noFile
  /-- There are words that mean nothing. -/
  | unrecognized (words : List String)
deriving DecidableEq

/-- What is wrong with a command line. -/
def Misuse.message : Misuse → String
  | ambiguous word flags =>
      "ambiguous option: " ++ word ++ " could match " ++ Text.joined ", " (flags.map Flag.long)
  | needlessValue flag value =>
      "argument " ++ flag.name ++ ": ignored explicit argument "
        ++ String.ofList (Text.quoted value)
  | noFile => "the following arguments are required: file_name"
  | unrecognized words => "unrecognized arguments: " ++ Text.joined " " words

/-- Why nothing is read. -/
inductive Ending where
  | help
  | version
  | misuse (m : Misuse)
deriving DecidableEq

/-- What to read and what to show of it. -/
structure Options where
  file : String
  tokens : Bool := false
  data : Bool := false
  plain : Bool := false
  debug : Bool := false
deriving DecidableEq

/-! ## Words -/

/-- What an argument is. -/
inductive Word where
  /-- No flag. -/
  | plain (text : String)
  /-- The two hyphens behind which there are no flags. -/
  | separator
  /-- A single flag, with the value behind its equals sign. -/
  | single (flag : Flag) (value : Option (List Char))
  /-- A short flag and the letters behind it. -/
  | joined (flag : Flag) (letters : List Char)
  /-- It looks like a flag, and there is no such flag. -/
  | unknown (text : String)
deriving DecidableEq

/-- One decimal digit or more. -/
def isNumber (cs : List Char) : Bool := !cs.isEmpty && cs.all fun c => (Text.digitValue? c).isSome

/-- What follows a hyphen makes it a negative number: digits, at most one point, and a digit at
the end. A newline at the very end does not matter. -/
def isNegative (unsigned : List Char) : Bool :=
  let cs := if unsigned.getLast? = some '\n' then unsigned.dropLast else unsigned
  let whole := cs.takeWhile (· != '.')
  match cs.dropWhile (· != '.') with
  | [] => isNumber whole
  | _ :: part => (whole.isEmpty || isNumber whole) && isNumber part

/-- The word for an argument that begins with a hyphen and is no flag. -/
def otherWord (arg : String) : Word :=
  if isNegative arg.toList.tail || arg.toList.contains ' ' then .plain arg else .unknown arg

/-- The text before the first equals sign, and the text behind it, if there is one. -/
def splitValue (cs : List Char) : List Char × Option (List Char) :=
  match cs.dropWhile (· != '=') with
  | [] => (cs, none)
  | _ :: value => (cs.takeWhile (· != '='), some value)

/-- Sort an argument. An equals sign between the letter of a short flag and further letters means
nothing. -/
def Word.ofArgument (arg : String) : Except Misuse Word :=
  match arg.toList with
  | '-' :: '-' :: cs =>
      let (word, value) := splitValue ('-' :: '-' :: cs)
      match Flag.ofLong? ('-' :: '-' :: cs), Flag.ofLong? word, Flag.beginningWith word with
      | some f, _, _ => .ok (.single f none)
      | none, some f, _ => .ok (.single f value)
      | none, none, [] => .ok (otherWord arg)
      | none, none, [f] => .ok (.single f value)
      | none, none, fs => .error (.ambiguous arg fs)
  | '-' :: c :: cs =>
      match Flag.ofLetter? c, cs with
      | none, _ => .ok (otherWord arg)
      | some f, [] => .ok (.single f none)
      | some f, ['='] => .ok (.single f (some []))
      | some f, '=' :: letters => .ok (.joined f letters)
      | some f, letters => .ok (.joined f letters)
  | _ => .ok (.plain arg)

/-- Sort all arguments. -/
def Word.ofArguments : List String → Except Misuse (List Word)
  | [] => .ok []
  | arg :: args =>
      if arg = "--" then .ok (.separator :: args.map .plain)
      else do
        let word ← Word.ofArgument arg
        let words ← Word.ofArguments args
        return word :: words

/-! ## Effects -/

/-- What the words so far have said. -/
structure Progress where
  file : Option String := none
  options : Options := { file := "" }
  /-- The words that mean nothing. -/
  extras : List String := []

/-- The flags that are joined behind one hyphen: `flag`, and those with the given letters. The
first letter that names no flag, with all that follows it, is a value for the flag before it. -/
def joinedFlags (flag : Flag) : (letters : List Char) → Except Misuse (List Flag)
  | [] => .ok [flag]
  | c :: cs =>
      match Flag.ofLetter? c with
      | none => .error (.needlessValue flag (c :: cs))
      | some next => (joinedFlags next cs).map (flag :: ·)

/-- The effect of a flag. -/
def Progress.set (p : Progress) : Flag → Except Ending Progress
  | .help => .error .help
  | .version => .error .version
  | .tokens => .ok { p with options := { p.options with tokens := true } }
  | .data => .ok { p with options := { p.options with data := true } }
  | .plain => .ok { p with options := { p.options with plain := true } }
  | .debug => .ok { p with options := { p.options with debug := true } }

/-- The effect of flags, one after the other. -/
def Progress.setAll (p : Progress) : List Flag → Except Ending Progress
  | [] => .ok p
  | f :: fs => do (← p.set f).setAll fs

/-- The effect of a word that names a flag. -/
def Progress.useFlag (p : Progress) (flag : Flag) : Option (List Char) → Except Ending Progress
  | none => p.set flag
  | some value => .error (.misuse (.needlessValue flag value))

/-- The effect of words. The first that is no flag is the file; the separator goes with it. -/
def Progress.follow (p : Progress) : List Word → Except Ending Progress
  | [] => .ok p
  | .plain text :: .separator :: words =>
      match p.file with
      | none => ({ p with file := some text } : Progress).follow words
      | some _ => ({ p with extras := p.extras ++ [text, "--"] } : Progress).follow words
  | .separator :: .plain text :: words =>
      match p.file with
      | none => ({ p with file := some text } : Progress).follow words
      | some _ => ({ p with extras := p.extras ++ ["--", text] } : Progress).follow words
  | .plain text :: words =>
      match p.file with
      | none => ({ p with file := some text } : Progress).follow words
      | some _ => ({ p with extras := p.extras ++ [text] } : Progress).follow words
  | .separator :: words => ({ p with extras := p.extras ++ ["--"] } : Progress).follow words
  | .single flag value :: words => do (← p.useFlag flag value).follow words
  | .joined flag letters :: words =>
      match joinedFlags flag letters with
      | .error m => .error (.misuse m)
      | .ok flags => do (← p.setAll flags).follow words
  | .unknown text :: words => ({ p with extras := p.extras ++ [text] } : Progress).follow words

/-- What arguments ask for. -/
def Options.ofArguments (args : List String) : Except Ending Options :=
  match Word.ofArguments args with
  | .error m => .error (.misuse m)
  | .ok words => do
      let p ← ({} : Progress).follow words
      match p.file, p.extras with
      | none, _ => .error (.misuse .noFile)
      | some file, [] => return { p.options with file }
      | some _, extras => .error (.misuse (.unrecognized extras))

end SchemeFront.CommandLine
