import OpGraph.Decoding
import OpGraph.Files

/-!
# The command

Decodes a graph file under the settings of another file, if one is named, and prints the result
as indented JSON.
-/

namespace OpGraph.Command

structure Outcome where
  status : UInt32
  output : String := ""
  complaint : Option String := none

def usage : String := "Usage: decode-graph <graph.json> [config.json]"

/-- A file that was named, with what reading it gave. -/
structure NamedFile where
  path : String
  bytes : FileBytes

def decode (graph : NamedFile) (settings : Option NamedFile) : Except String String := do
  let settings ← match settings with
    | some file => (Settings.load file.path file.bytes).mapError Settings.LoadError.message
    | none => .ok .standard
  let graph ← (Graph.load graph.bytes).mapError Graph.LoadError.message
  let view : View := ⟨graph.root, settings.typeNames⟩
  let decoded ← view.decode.mapError Fault.message
  .ok decoded.json.pretty

def run : List NamedFile → Outcome
  | [] => { status := 1, complaint := some usage }
  | graph :: rest =>
      match decode graph rest.head? with
      | .ok text => { status := 0, output := text ++ "\n" }
      | .error message => { status := 1, complaint := some ("decode-graph: " ++ message) }

end OpGraph.Command
