import OpGraph.Element
import OpGraph.Scalar
import OpGraph.Shape

/-!
# Constants

A constant holds its elements in the storage of its element type, flattened in row-major order.
It is made from scalars only when their number matches the shape and each of them converts.
-/

namespace OpGraph

inductive Payload
  | f32 (elements : List Binary32)
  | f64 (elements : List Binary64)
  | i8 (elements : List Int8)
  | i32 (elements : List Int32)
  | i64 (elements : List Int64)
  | u8 (elements : List UInt8)
  | bool (elements : List Bool)
  deriving DecidableEq, Repr

structure Constant where
  element : Element
  /-- The sizes of all dimensions; none for a single scalar. -/
  shape : List UInt64
  payload : Payload
  deriving DecidableEq, Repr

namespace Payload

/-- The scalars in the storage of an element type, if every one of them converts. -/
def ofScalars? (values : List Scalar) : Element → Option Payload
  | .f32 => (values.mapM Scalar.toBinary32).map f32
  | .f64 => (values.mapM Scalar.toBinary64).map f64
  | .i8 => (values.mapM Scalar.toInt8).map i8
  | .i32 => (values.mapM Scalar.toInt32).map i32
  | .i64 => (values.mapM Scalar.toInt64).map i64
  | .u8 => (values.mapM Scalar.toUInt8).map u8
  | .bool => (values.mapM Scalar.toBool).map bool
  | .dynamic => none

def scalars : Payload → List Scalar
  | f32 xs => xs.map fun x => .float x.widen
  | f64 xs => xs.map .float
  | i8 ns => ns.map fun n => .int n.toInt64
  | i32 ns => ns.map fun n => .int n.toInt64
  | i64 ns => ns.map .int
  | u8 ns => ns.map fun n => .int (.ofNat n.toNat)
  | bool bs => bs.map .bool

def element : Payload → Element
  | f32 _ => .f32
  | f64 _ => .f64
  | i8 _ => .i8
  | i32 _ => .i32
  | i64 _ => .i64
  | u8 _ => .u8
  | bool _ => .bool

end Payload

namespace Constant

/-- The number of elements of a shape, multiplied from the left in words; nothing once a product
does not fit. -/
def elementCount (shape : List UInt64) : Option Nat :=
  shape.foldlM (fun count n =>
    if count * n.toNat < UInt64.size then some (count * n.toNat) else none) 1

def ofScalars? (element : Element) (shape : List UInt64) (values : List Scalar) :
    Option Constant :=
  if elementCount shape = some values.length then
    (Payload.ofScalars? values element).map fun p => ⟨element, shape, p⟩
  else none

def rank (c : Constant) : Nat := c.shape.length

/-- The elements as scalars, unless the payload is stored for another element type. -/
def scalars (c : Constant) : Option (List Scalar) :=
  if c.payload.element = c.element then some c.payload.scalars else none

end Constant

end OpGraph
