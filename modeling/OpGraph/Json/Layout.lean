import OpGraph.Json.Tree

/-!
# Writing trees

A layout says where lines break and what follows a name.  The compact layout writes no blank at
all; the pretty one gives every item and member a line of its own, indented by two spaces a
level, and keeps empty brackets together.
-/

namespace OpGraph

namespace Json

structure Layout where
  /-- What stands before an item or a closing bracket at some depth. -/
  lineBreak : (depth : Nat) → List Char
  afterColon : List Char

namespace Layout

def compact : Layout := ⟨fun _ => [], []⟩

def pretty : Layout := ⟨fun depth => '\n' :: List.replicate (2 * depth) ' ', [' ']⟩

end Layout

def nameChars : Option String → List Char
  | some s => quote s
  | none => "\"\\ud800\"".toList

mutual

/-- The text of a tree; brackets are always closed. -/
def write (l : Layout) (depth : Nat) : Json → List Char
  | .null => "null".toList
  | .bool true => "true".toList
  | .bool false => "false".toList
  | .num n => n.chars
  | .text s => nameChars s
  | .list [] _ => ['[', ']']
  | .list (j :: js) _ =>
      '[' :: l.lineBreak (depth + 1) ++ write l (depth + 1) j ++ writeItems l (depth + 1) js ++
        l.lineBreak depth ++ [']']
  | .record [] _ => ['\x7b', '\x7d']
  | .record ((name, j) :: ms) _ =>
      '\x7b' :: l.lineBreak (depth + 1) ++ nameChars name ++ ':' :: l.afterColon ++
        write l (depth + 1) j ++ writeMembers l (depth + 1) ms ++ l.lineBreak depth ++ ['\x7d']
  | .broken => []

def writeItems (l : Layout) (depth : Nat) : List Json → List Char
  | [] => []
  | j :: js => ',' :: l.lineBreak depth ++ write l depth j ++ writeItems l depth js

def writeMembers (l : Layout) (depth : Nat) : List (Option String × Json) → List Char
  | [] => []
  | (name, j) :: ms =>
      ',' :: l.lineBreak depth ++ nameChars name ++ ':' :: l.afterColon ++ write l depth j ++
        writeMembers l depth ms

end

end Json

def Json.compact (j : Json) : String := .ofList (write .compact 0 j)

def Json.pretty (j : Json) : String := .ofList (write .pretty 0 j)

namespace Json

/-! What writers build trees from. -/

def string (s : String) : Json := .text (some s)

def array (items : List Json) : Json := .list items .closed

def object (members : List (String × Json)) : Json :=
  .record (members.map fun (name, j) => (some name, j)) .closed

def ofInt (n : Int) : Json := .num (.ofInt n)

/-- A datum that is no finite number is written as null. -/
def ofFloat (x : Binary64) : Json := if x.finite then .num (.ofFloat x) else .null

/-- A value inside a record whose only name says which variant it belongs to. -/
def variant (name : String) (j : Json) : Json := object [(name, j)]

def optional {α : Type} (f : α → Json) : Option α → Json
  | some a => f a
  | none => .null

end Json

end OpGraph
