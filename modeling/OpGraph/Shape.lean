import OpGraph.Json.Layout
import OpGraph.Json.Variant

/-!
# Shapes

A dimension is a known size or none.  A shape of unknown rank is `dynamic`.
-/

namespace OpGraph

/-- The size of a dimension, if it is known. -/
abbrev Dim := Option UInt64

def Json.size (n : UInt64) : Json := .ofInt n.toNat

namespace Dim

def text : Dim → String
  | some n => toString n.toNat
  | none => "?"

def json (d : Dim) : Json := Json.optional Json.size d

def reader : Json.Reader Dim := .option .word

end Dim

inductive Shape
  | dynamic
  | ranked (dims : List Dim)
  deriving DecidableEq, Repr

namespace Shape

def static (sizes : List UInt64) : Shape := .ranked (sizes.map some)

def rank : Shape → Option Nat
  | dynamic => none
  | ranked dims => some dims.length

def sizes : Shape → Option (List UInt64)
  | dynamic => none
  | ranked dims => dims.mapM id

def isStatic (s : Shape) : Bool := s.sizes.isSome

def text : Shape → String
  | dynamic => "[...]"
  | ranked dims => "[" ++ ",".intercalate (dims.map Dim.text) ++ "]"

def json : Shape → Json
  | dynamic => .string "dynamic"
  | ranked dims => .variant "ranked" (.array (dims.map Dim.json))

def reader : Json.Reader Shape :=
  .choice [.plain "dynamic" .dynamic, .carrying "ranked" (.list Dim.reader) .ranked "newtype"]

end Shape

end OpGraph
