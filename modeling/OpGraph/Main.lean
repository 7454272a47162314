import OpGraph.Command

/-!
# Entry point

Reads the files, runs the command and prints what it leaves behind.
-/

open OpGraph

/-- Whether a failure has a system code, which may come with its sign turned. -/
def isCode (code expected : UInt32) : Bool := code = expected ∨ code = 0 - expected

/-- Reads a file.  A failure is told by its usual reason. -/
def readNamed (path : String) : IO Command.NamedFile := do
  try
    let bytes ← IO.FS.readBinFile path
    return ⟨path, .ok bytes⟩
  catch
    | .noFileOrDirectory .. => return ⟨path, .error .missing⟩
    | .inappropriateType _ code _ =>
        return ⟨path, .error (if isCode code 20 then .notDirectory else .directory)⟩
    | .invalidArgument _ code _ =>
        return ⟨path, .error (if isCode code 36 then .nameTooLong
          else .system "Invalid argument" 22)⟩
    | .permissionDenied .. => return ⟨path, .error (.system "Permission denied" 13)⟩
    | _ => return ⟨path, .error (.system "Input/output error" 5)⟩

def main (args : List String) : IO UInt32 := do
  let files ← args.mapM readNamed
  let outcome := Command.run files
  IO.print outcome.output
  if let some line := outcome.complaint then
    IO.eprintln line
  return outcome.status
