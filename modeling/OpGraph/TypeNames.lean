import OpGraph.Element
import OpGraph.NameMap

/-!
# Recognised type names

A table from native type names to element types.  It only ever grows: a name that is mapped keeps
its type, and nothing is mapped to the dynamic type.
-/

namespace OpGraph

structure TypeNames where
  map : NameMap Element
  deriving DecidableEq

namespace TypeNames

def empty : TypeNames := ⟨.empty⟩

def get? (t : TypeNames) (name : String) : Option Element := t.map.get? name

def lookup (t : TypeNames) (name : String) : Element := (t.get? name).getD .dynamic

def contains (t : TypeNames) (name : String) : Bool := (t.get? name).isSome

def size (t : TypeNames) : Nat := t.map.size

def isEmpty (t : TypeNames) : Bool := t.map.entries.isEmpty

/-- Adds an entry unless the name is mapped already or the type is dynamic, and says whether it
did. -/
def insert (t : TypeNames) (name : String) (e : Element) : TypeNames × Bool :=
  if e = .dynamic ∨ t.contains name then (t, false) else (⟨t.map.put name e⟩, true)

/-- Adds an entry where that changes nothing else. -/
def add (t : TypeNames) (name : String) (e : Element) : TypeNames := (t.insert name e).1

def extend (t : TypeNames) : List (String × Element) → TypeNames
  | [] => t
  | (name, e) :: rest => (t.add name e).extend rest

@[simp] theorem extend_nil (t : TypeNames) : t.extend [] = t := rfl

@[simp] theorem extend_cons (t : TypeNames) (name : String) (e : Element)
    (rest : List (String × Element)) :
    t.extend ((name, e) :: rest) = (t.add name e).extend rest := rfl

theorem extend_append (t : TypeNames) (as bs : List (String × Element)) :
    t.extend (as ++ bs) = (t.extend as).extend bs := by
  induction as generalizing t with
  | nil => rfl
  | cons a as ih => exact ih (t.add a.1 a.2)

def standardEntries : List (String × Element) :=
  [("float", .f32), ("int", .i32), ("bool", .bool),
    ("torch.float32", .f32), ("torch.int32", .i32), ("torch.bool", .bool)]

def standard : TypeNames := empty.extend standardEntries

end TypeNames

end OpGraph
