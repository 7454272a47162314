import OpGraph.Json.Layout
import OpGraph.Json.Reader

/-!
# Scalars

One element of a literal.  JSON writes it without a tag: a number that is spelled as an integer
and fits a signed word is an integer, every other number a float.
-/

namespace OpGraph

inductive Scalar
  | int (value : Int64)
  | float (value : Binary64)
  | bool (value : Bool)
  deriving DecidableEq, Repr

namespace Scalar

def toBinary64 : Scalar → Option Binary64
  | int n => some (.ofInt n.toInt)
  | float x => some x
  | bool _ => none

def toBinary32 (s : Scalar) : Option Binary32 := s.toBinary64.map Binary64.narrow

def toInt64 : Scalar → Option Int64
  | int n => some n
  | _ => none

def toInt32 : Scalar → Option Int32
  | int n =>
      if Int32.minValue.toInt ≤ n.toInt ∧ n.toInt ≤ Int32.maxValue.toInt then some (.ofInt n.toInt)
      else none
  | _ => none

def toInt8 : Scalar → Option Int8
  | int n =>
      if Int8.minValue.toInt ≤ n.toInt ∧ n.toInt ≤ Int8.maxValue.toInt then some (.ofInt n.toInt)
      else none
  | _ => none

def toUInt8 : Scalar → Option UInt8
  | int n => if 0 ≤ n.toInt ∧ n.toInt < UInt8.size then some (.ofNat n.toInt.toNat) else none
  | _ => none

def toBool : Scalar → Option Bool
  | bool b => some b
  | _ => none

def json : Scalar → Json
  | int n => .ofInt n.toInt
  | float x => .ofFloat x
  | bool b => .bool b

def ofNumber : Json.Number → Scalar
  | .integer n =>
      if Int64.minValue.toInt ≤ n ∧ n ≤ Int64.maxValue.toInt then int (.ofInt n)
      else float (.ofInt n)
  | .float x => float x

def ofJson? : Json → Option Scalar
  | .num n => n.number.map ofNumber
  | .bool b => some (bool b)
  | _ => none

/-- Takes any whole value before it settles what the value is. -/
def reader : Json.Reader Scalar := fun room j =>
  if Json.kept room j then
    match ofJson? j with
    | some s => .ok s
    | none => .error (.noForm "Scalar")
  else .error .malformed

end Scalar

end OpGraph
