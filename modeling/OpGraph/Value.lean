import OpGraph.Json.Record
import OpGraph.Scalar
import OpGraph.Shape

/-!
# Values

A value is an edge of a graph: it has an identity, the type its framework reports, and a literal
when the framework knows one.
-/

namespace OpGraph

structure ValueId where
  number : UInt64
  deriving DecidableEq, Repr

namespace ValueId

def text (id : ValueId) : String := s!"%{id.number.toNat}"

def json (id : ValueId) : Json := .size id.number

def reader : Json.Reader ValueId := Json.Reader.word.map ValueId.mk

end ValueId

inductive ValueType
  | tensor (element : Option String) (sizes : Option (List Dim))
  | scalar (name : String)
  | list (item : ValueType)
  | absent
  | other (name : String)
  deriving DecidableEq, Repr

namespace ValueType

def unknownTensor : ValueType := .tensor none none

/-- The sizes of a tensor whose element type and dimensions are all known. -/
def knownSizes : ValueType → Option (List UInt64)
  | .tensor (some _) (some dims) => dims.mapM id
  | _ => none

/-- The native name of the element type of a tensor or scalar. -/
def elementName : ValueType → Option String
  | .tensor element _ => element
  | .scalar name => some name
  | _ => none

def json : ValueType → Json
  | .tensor element sizes =>
      .variant "tensor" <| .object
        [("dtype", .optional .string element),
          ("sizes", .optional (fun dims => .array (dims.map Dim.json)) sizes)]
  | .scalar name => .variant "scalar" (.string name)
  | .list item => .variant "list" item.json
  | .absent => .string "none"
  | .other name => .variant "other" (.string name)

def tensorReader : Json.Reader (Option String × Option (List Dim) × Unit) :=
  .record "struct variant ValueType::Tensor" <|
    .field "dtype" (.option .string) (some none) <|
    .field "sizes" (.option (.list Dim.reader)) (some none) .done

/-- The reader of a type, given the reader of the types inside it. -/
def readerOver (item : Json.Reader ValueType) : Json.Reader ValueType := .choice
  [.carrying "tensor" tensorReader (fun (element, sizes, _) => .tensor element sizes) "struct",
    .carrying "scalar" .string .scalar "newtype",
    .carrying "list" item .list "newtype",
    .plain "none" .absent,
    .carrying "other" .string .other "newtype"]

def reader : Json.Reader ValueType := .fix readerOver

end ValueType

inductive Literal
  | scalar (value : Scalar)
  | list (values : List Scalar)
  /-- Elements in row-major order. -/
  | tensor (values : List Scalar)
  | unsupported
  deriving DecidableEq, Repr, Inhabited

namespace Literal

def json : Literal → Json
  | .scalar s => .variant "scalar" s.json
  | .list ss => .variant "list" (.array (ss.map Scalar.json))
  | .tensor ss => .variant "tensor" (.array (ss.map Scalar.json))
  | .unsupported => .string "unsupported"

def reader : Json.Reader Literal := .choice
  [.carrying "scalar" Scalar.reader .scalar "newtype",
    .carrying "list" (.list Scalar.reader) .list "newtype",
    .carrying "tensor" (.list Scalar.reader) .tensor "newtype",
    .plain "unsupported" .unsupported]

end Literal

/-- A value as an operation refers to it. -/
structure Value where
  id : ValueId
  type : ValueType
  literal : Literal := .unsupported
  /-- Whether this is the value that stands for none. -/
  absent : Bool := type = .absent
  deriving DecidableEq, Repr

namespace Value

/-- The sizes of a complete tensor; nothing is known of any other shape. -/
def shape (v : Value) : Shape :=
  match v.type.knownSizes with
  | some sizes => .static sizes
  | none => .dynamic

end Value

end OpGraph
