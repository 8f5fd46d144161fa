import LispNamespace.CommandLine.Run

/-!
# The program

Reads the arguments, the surroundings and the file, and writes what the run leaves behind.
-/

open LispNamespace

/-- The text of a file, or of standard input for a hyphen. -/
def readFileArgument (file : Text) : IO (Option Text) := do
  try
    let text ←
      if file == "-" then (← IO.getStdin).readToEnd else IO.FS.readFile (Text.asString file)
    return some (Expander.unifyLineEnds text)
  catch _ => return none

/-- Runs the program and gives its exit status. -/
def main (args : List String) : IO UInt32 := do
  let ambient : Ambient :=
    ⟨(← IO.getEnv "ELNAMES_PROTECTION").map Text.ofString,
      (← IO.getEnv "ELNAMES_VERBOSE").map Text.ofString⟩
  match CommandLine.request (fun _ => true) (args.map Text.ofString) with
  | .error .help => return 0
  | .error .usage => return 2
  | .ok request =>
      match ← readFileArgument request.file with
      | none => return 2
      | some text =>
          let outcome := CommandLine.run ambient request text
          (← IO.getStderr).putStr (Text.asString outcome.reports)
          (← IO.getStdout).putStr (Text.asString outcome.output)
          return outcome.status.toUInt32
