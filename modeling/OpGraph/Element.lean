import OpGraph.Json.Layout
import OpGraph.Json.Variant

/-!
# Element types

The closed set of element types that values are decoded to.  `dynamic` stands for a type that is
absent or not recognised.
-/

namespace OpGraph

inductive Element
  | f32
  | f64
  | i8
  | i32
  | i64
  | u8
  | bool
  | dynamic
  deriving DecidableEq, Repr, Inhabited

namespace Element

def all : List Element := [f32, f64, i8, i32, i64, u8, bool, dynamic]

def name : Element → String
  | f32 => "f32"
  | f64 => "f64"
  | i8 => "i8"
  | i32 => "i32"
  | i64 => "i64"
  | u8 => "u8"
  | bool => "bool"
  | dynamic => "dynamic"

/-- The type of a name; `bool` has a second one. -/
def ofName? (s : String) : Option Element :=
  if s = "boolean" then some bool else all.find? fun e => e.name = s

def json (e : Element) : Json := .string e.name

def reader : Json.Reader Element := .choice (all.map fun e => .plain e.name e)

end Element

end OpGraph
