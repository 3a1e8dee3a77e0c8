import SchemeFront.CommandLine.Options
import SchemeFront.Expr.Outline
import SchemeFront.Session
import SchemeFront.Text.Utf8

set_option autoImplicit false

/-! # Runs

A run of the command line prints lines and ends with a code: zero if nothing is wrong with the
Scheme text, one if something is, or if the file cannot be read, and two if the command line is
wrong. `start` is the part before the file is opened, `Options.finish` the part after that.
-/

namespace SchemeFront.CommandLine

/-- How a run ends: its code and what it has printed. -/
structure Exit where
  code : Nat
  stdout : String := ""
  stderr : String := ""
deriving DecidableEq

/-! ## Help -/

/-- The name and version of the program. -/
def versionText : String := "scheme-parser 0.1.0"

/-- How the program is called. -/
def usage : String := "usage: main.py [-h] [-t] [-d] [-n] [--debug] [--version] file_name"

/-- What the program does and what its flags mean. -/
def helpLines : List String :=
  [usage,
   "",
   "Scheme front-end - tokenize and parse Scheme source into a syntax tree",
   "",
   "positional arguments:",
   "  file_name           Scheme source file to parse",
   "",
   "options:",
   "  -h, --help          show this help message and exit",
   "  -t, --token         Tokenize only and show the tokens",
   "  -d, --datum         Read data only and show the datum tree",
   "  -n, --non-colorful  Render diagnostics without colour",
   "  --debug             Enable debug output for all stages",
   "  --version           show program's version number and exit",
   "",
   "Examples:",
   "  main.py program.scm              # Parse and show the syntax tree",
   "  main.py --token program.scm      # Show the token stream",
   "  main.py --datum program.scm      # Show the datum tree before expansion",
   "  main.py -n program.scm           # Diagnostics without colour",
   "        "]

/-- The end of a run that reads nothing. -/
def Ending.exit : Ending → Exit
  | .help => { code := 0, stdout := Text.unlines helpLines }
  | .version => { code := 0, stdout := Text.unlines [versionText] }
  | .misuse m =>
      { code := 2, stderr := Text.unlines [usage, "main.py: error: " ++ m.message] }

/-! ## Files -/

/-- What opening a file gives. -/
inductive File where
  | missing
  | denied
  | bytes (content : List Nat)

/-- Where and why bytes are not UTF-8, in words. -/
def utf8Message (e : Text.Utf8Error) : String :=
  let reason :=
    match e.reason with
    | .start => "invalid start byte"
    | .continuation => "invalid continuation byte"
    | .ended => "unexpected end of data"
  let place :=
    if e.first = e.last then
      "byte 0x" ++ String.ofList (Text.hex 2 e.byte) ++ s!" in position {e.first}"
    else s!"bytes in position {e.first}-{e.last}"
  "'utf-8' codec can't decode " ++ place ++ ": " ++ reason

/-- The text of a file, or what to say if there is none. -/
def File.read (name : String) : File → Except (List String) (List Char)
  | missing =>
      .error ["Error: Source file '" ++ name ++ "' not found",
        "  Hint: Check the file path and make sure the file exists"]
  | denied => .error ["Error: Permission denied reading '" ++ name ++ "'"]
  | bytes content =>
      match Text.decode content with
      | .ok text => .ok (Text.normalizeNewlines text)
      | .error e =>
          .error ["Error: Cannot decode file '" ++ name ++ "': " ++ utf8Message e,
            "  Hint: Make sure the file is a text file with UTF-8 encoding"]

/-! ## What is shown -/

/-- A text, widened with blanks on its right. -/
def padded (width : Nat) (text : String) : String :=
  text ++ Text.blanks (width - text.length)

/-- The line of a token. -/
def tokenLine (t : Token) : String :=
  padded 9 t.lexeme.kind ++ " " ++ padded 16 t.text ++ s!" {t.span.start}..{t.span.stop}"

/-- The line of a datum without parts. -/
def leafLine (src : Source) (level : Nat) (d : Datum) : String :=
  Text.indented level
    (d.kind ++ "(" ++ d.text ++ ")  " ++ String.ofList (Text.quoted (src.excerpt d.span)))

mutual

/-- The lines of a datum: one for each list, and one with an excerpt for all else. -/
def datumLines (src : Source) (level : Nat) : Datum → List String
  | .list ds _ => Text.indented level "LIST" :: dataLines src (level + 1) ds
  | .leaf l s => [leafLine src level (.leaf l s)]
  | .broken ts s => [leafLine src level (.broken ts s)]

/-- The lines of a list of data. -/
def dataLines (src : Source) (level : Nat) : List Datum → List String
  | [] => []
  | d :: ds => datumLines src level d ++ dataLines src level ds

end

/-- The lines of tokens as text. -/
def tokensText (ts : List Token) : Except Fault String :=
  writeIf (ts.all (·.lexeme.isWritable)) (Text.unlines (ts.map tokenLine))

/-- The lines of data as text. -/
def dataText (src : Source) (ds : List Datum) : Except Fault String :=
  writeIf ((Datum.subdataAll ds).all Datum.isWritable) (Text.unlines (dataLines src 0 ds))

/-- What is shown of a source, and the report on what is wrong with it: the tokens if they are
asked for or are all there is, else the data if they are asked for, else the program. -/
def Options.display (o : Options) (src : Source) : Call (String × Option Report) := do
  let (tokens, report?) ← Session.lex src
  if o.tokens || report?.isSome then
    let text ← Session.liftFault (tokensText tokens)
    return (text, report?)
  else if o.data then
    let (data, report?) ← Session.liftFault (Datum.ofTokens defaultLimit src tokens)
    let text ← Session.liftFault (dataText src data)
    return (text, report?)
  else
    let (program, report?) ← Session.parseLenientTokens src tokens
    let text ← Session.liftFault (program.write (some src))
    return (text, report?)

/-! ## Runs -/

/-- The text of a report, if there is one. -/
def reportText (colourful : Bool) : Option Report → Except Fault String
  | none => .ok ""
  | some r => (r.coloured colourful).write

/-- The run on a text: the events if they are asked for, what is shown, and the report. -/
def Options.process (o : Options) (text : List Char) : Except Stop Exit :=
  match (o.display ⟨o.file, text⟩).run {} with
  | (.error stop, _) => .error stop
  | (.ok (shown, report?), s) => do
      let log := if o.debug then s.events.map Event.line else []
      let report ← (reportText (!o.plain) report?).mapError Stop.fault
      return {
        code := if report?.isSome then 1 else 0
        stdout := Text.unlines log ++ shown ++ report }

/-- The part of a run after its file was opened. -/
def Options.finish (o : Options) (file : File) : Except Stop Exit :=
  match file.read o.file with
  | .error lines => .ok { code := 1, stdout := Text.unlines lines }
  | .ok text => o.process text

/-- The part of a run before a file is opened: what to do with it, or the end of the run. -/
def start (args : List String) : Except Exit Options :=
  (Options.ofArguments args).mapError Ending.exit

end SchemeFront.CommandLine
