import SchemeFront.CommandLine.Run

set_option autoImplicit false

/-! # The program

Reads the arguments and the file, and prints what the run gives.
-/

namespace SchemeFront.CommandLine

/-- Open a file. -/
def openFile (name : String) : IO File :=
  try
    let content ← IO.FS.readBinFile name
    return .bytes (content.toList.map UInt8.toNat)
  catch
    | .noFileOrDirectory .. => return .missing
    | .permissionDenied .. => return .denied
    | e => throw e

/-- Print what a run has printed, and give its code. -/
def Exit.perform (e : Exit) : IO UInt32 := do
  (← IO.getStdout).putStr e.stdout
  (← IO.getStderr).putStr e.stderr
  return e.code.toUInt32

/-- A run of the program. -/
def perform (args : List String) : IO UInt32 := do
  match start args with
  | .error e => e.perform
  | .ok options =>
      match options.finish (← openFile options.file) with
      | .ok e => e.perform
      | .error (.fault fault) => Exit.perform { code := 1, stderr := fault.message ++ "\n" }
      | .error (.report report) => Exit.perform { code := 1, stderr := report.text }

end SchemeFront.CommandLine

def main (args : List String) : IO UInt32 := SchemeFront.CommandLine.perform args
