import OpGraph.Json.Record
import OpGraph.TypeNames

/-!
# Settings

Type names to recognise on top of the standard ones, and how much is logged.
-/

namespace OpGraph

inductive Verbosity
  | off
  | error
  | warn
  | info
  | debug
  | trace
  deriving DecidableEq, Repr, Inhabited

namespace Verbosity

def all : List Verbosity := [off, error, warn, info, debug, trace]

def name : Verbosity → String
  | off => "off"
  | error => "error"
  | warn => "warn"
  | info => "info"
  | debug => "debug"
  | trace => "trace"

def filter : Verbosity → String
  | off => "OFF"
  | error => "ERROR"
  | warn => "WARN"
  | info => "INFO"
  | debug => "DEBUG"
  | trace => "TRACE"

def ofName? (s : String) : Option Verbosity := all.find? fun v => v.name = s

def json (v : Verbosity) : Json := .string v.name

def reader : Json.Reader Verbosity := .choice (all.map fun v => .plain v.name v)

end Verbosity

structure Settings where
  types : NameMap Element
  verbosity : Verbosity
  deriving DecidableEq

namespace Settings

def standard : Settings := ⟨.empty, .info⟩

def setType (s : Settings) (name : String) (e : Element) : Settings :=
  { s with types := s.types.put name e }

def setVerbosity (s : Settings) (v : Verbosity) : Settings := { s with verbosity := v }

/-- The standard names, which keep their types, and then the settings' own. -/
def typeNames (s : Settings) : TypeNames := TypeNames.standard.extend s.types.entries

def json (s : Settings) : Json :=
  .object
    [("types", .object (s.types.entries.map fun (name, e) => (name, e.json))),
      ("log_level", s.verbosity.json)]

def text (s : Settings) : String := s.json.pretty

def reader : Json.Reader Settings :=
  (Json.Reader.record "struct DecoderConfig" <|
    .field "types" ((Json.Reader.dictionary Element.reader).map NameMap.ofList) (some .empty) <|
    .field "log_level" Verbosity.reader (some .info) .done).map
      fun (types, verbosity, _) => ⟨types, verbosity⟩

def parse (s : String) : Except Json.ReadError Settings := reader.text s

end Settings

end OpGraph
