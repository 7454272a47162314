import OpGraph.Dump.Format
import OpGraph.Graph
import OpGraph.Settings

/-!
# Files

What was read from a file, and what graphs and settings make of it.
-/

namespace OpGraph

/-- Why a file could not be read as text. -/
inductive FileFault
  | system (reason : String) (code : Nat)
  | nulInName
  | notUtf8
  deriving DecidableEq, Repr

namespace FileFault

def missing : FileFault := .system "No such file or directory" 2

def notDirectory : FileFault := .system "Not a directory" 20

def directory : FileFault := .system "Is a directory" 21

def nameTooLong : FileFault := .system "File name too long" 36

def message : FileFault → String
  | .system reason code => reason ++ s!" (os error {code})"
  | .nulInName => "file name contained an unexpected NUL byte"
  | .notUtf8 => "stream did not contain valid UTF-8"

end FileFault

abbrev FileBytes := Except FileFault ByteArray

def FileBytes.text (f : FileBytes) : Except FileFault String := do
  match String.fromUTF8? (← f) with
  | some s => .ok s
  | none => .error .notUtf8

namespace Graph

inductive LoadError
  | file (fault : FileFault)
  | json (error : Json.ReadError)
  | defect (defect : Dump.Defect)
  deriving DecidableEq, Repr

def LoadError.message : LoadError → String
  | .file e => "IO error: " ++ e.message
  | .json e => "JSON error: " ++ e.message
  | .defect e => e.message

def parse (s : String) : Except LoadError Graph := do
  let d ← (Dump.parse s).mapError .json
  (ofDump d).mapError .defect

def load (f : FileBytes) : Except LoadError Graph := do
  parse (← f.text.mapError .file)

end Graph

namespace Settings

inductive LoadError
  | invalidFormat (error : Json.ReadError)
  | notFound (path : String)
  deriving DecidableEq, Repr

def LoadError.message : LoadError → String
  | .invalidFormat e => "Config error => Invalid format: " ++ e.message
  | .notFound path => "Config error => File not found: " ++ path

/-- A file that cannot be read as text counts as not found. -/
def load (path : String) (f : FileBytes) : Except LoadError Settings := do
  (parse (← f.text.mapError fun _ => .notFound path)).mapError .invalidFormat

end Settings

end OpGraph
