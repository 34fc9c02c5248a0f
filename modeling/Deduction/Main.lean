import Deduction.CommandLine.Session

/-!
# The command line

Reads the file to load, runs the session and carries out what its transcript says.
-/

namespace Deduction.CommandLine

/-- One line on how to call the program. -/
def usageLine : String :=
  "usage: [-h] [--logic LOGIC] [--load FILE] [--save FILE] [--list] [--roth ID] "
    ++ "[--forward | --backward] [--max-steps N] [--show-relation] [--strict] [--quiet] "
    ++ "[--debug] [args ...]"

/-- The text of a file, or why it cannot be read. -/
def readFile (path : String) : IO (Except Error String) := do
  try
    return .ok (← IO.FS.readFile path)
  catch
    | .inappropriateType .. => return .error (.isAFolder path)
    | _ => return .error (.noSuchFile path)

/-- Carry out a session: print what it prints and write what it writes. -/
def perform (options : Options) : IO UInt32 := do
  let loaded ← match options.load with
    | some path => readFile path
    | none => pure (.ok "")
  let (transcript, ending) := Session.run options ⟨fun _ => loaded, fun path => .ok (some path)⟩
  IO.print transcript.stdout
  IO.eprint transcript.stderr
  for (path, text) in transcript.written do
    IO.FS.writeFile path text
  match ending with
  | .exit code => return code.toUInt32
  | .broken cause =>
    IO.eprintln cause.message
    return 1

end Deduction.CommandLine

open Deduction CommandLine in
/-- The entry point. -/
def main (argv : List String) : IO UInt32 := do
  match Options.ofWords argv with
  | .error .help =>
    IO.println usageLine
    return 0
  | .error .usage =>
    IO.eprintln usageLine
    return 2
  | .ok options => perform options
