import OpGraph.Json.ReadError

/-!
# Readers

A reader takes a value from a tree, or reports the first thing wrong with the text.  It is given
the number of brackets that may still be opened; reading a bracket that is kept takes one, and
with none left the text counts as malformed.  Values that are skipped take none.
-/

namespace OpGraph.Json

def Reader (α : Type) : Type := (room : Nat) → Json → Except ReadError α

/-- Refuses a value of the wrong type. -/
def mismatch {α : Type} (wanted : String) (j : Json) : Except ReadError α :=
  match j.found with
  | some f => .error (.wrongType f wanted)
  | none => .error .malformed

namespace Reader

variable {α β : Type}

def map (f : α → β) (r : Reader α) : Reader β := fun room j => (r room j).map f

def closing : Ending → Except ReadError Unit
  | .closed => .ok ()
  | _ => .error .malformed

def word : Reader UInt64
  | _, .num n =>
      match n.number with
      | some (.integer value) =>
          if 0 ≤ value then .ok (.ofNat value.toNat) else .error (.wrongValue value "usize")
      | some (.float x) => .error (.wrongType (.float x) "usize")
      | none => .error .malformed
  | _, j => mismatch "usize" j

def string : Reader String
  | _, .text (some s) => .ok s
  | _, j => mismatch "a string" j

def unit : Reader Unit
  | _, .null => .ok ()
  | _, j => mismatch "unit" j

def option (r : Reader α) : Reader (Option α)
  | _, .null => .ok none
  | room, j => (r room j).map some

def items (r : Json → Except ReadError α) : List Json → Except ReadError (List α)
  | [] => .ok []
  | j :: js => do
      let a ← r j
      let as ← items r js
      .ok (a :: as)

def list (r : Reader α) : Reader (List α)
  | 0, .list _ _ => .error .malformed
  | room + 1, .list js ending => do
      let as ← items (r room) js
      closing ending
      .ok as
  | _, j => mismatch "a sequence" j

def entries (r : Json → Except ReadError α) :
    List (Option String × Json) → Except ReadError (List (String × α))
  | [] => .ok []
  | (none, _) :: _ => .error .malformed
  | (some name, j) :: ms => do
      let a ← r j
      let as ← entries r ms
      .ok ((name, a) :: as)

/-- A record with arbitrary names, its members in the order of the text. -/
def dictionary (r : Reader α) : Reader (List (String × α))
  | 0, .record _ _ => .error .malformed
  | room + 1, .record ms ending => do
      let as ← entries (r room) ms
      closing ending
      .ok as
  | _, j => mismatch "a map" j

/-- The reader of a recursive type, from what it is in terms of itself.  Every round of the
recursion opens a bracket, so that rounds beyond the room are never asked for. -/
def rounds (step : Reader α → Reader α) : Nat → Reader α
  | 0 => fun _ _ => .error .malformed
  | n + 1 => step (rounds step n)

def fix (step : Reader α → Reader α) : Reader α := fun room j => rounds step (room + 1) room j

end Reader

/-! ## Whole texts -/

/-- How many brackets may be open at once. -/
def maxDepth : Nat := 127

def Reader.text {α : Type} (r : Reader α) (s : String) : Except ReadError α := do
  let d := document s
  let a ← r maxDepth d.root
  if d.ended then .ok a else .error .malformed

mutual

/-- Whether every part of a value can be kept: it is whole, its texts and numbers are in range,
and it stays within the room. -/
def kept (room : Nat) : Json → Bool
  | .null => true
  | .bool _ => true
  | .num n => n.number.isSome
  | .text s => s.isSome
  | .list js ending => 0 < room && keptItems (room - 1) js && ending = .closed
  | .record ms ending => 0 < room && keptMembers (room - 1) ms && ending = .closed
  | .broken => false

def keptItems (room : Nat) : List Json → Bool
  | [] => true
  | j :: js => kept room j && keptItems room js

def keptMembers (room : Nat) : List (Option String × Json) → Bool
  | [] => true
  | (name, j) :: ms => name.isSome && kept room j && keptMembers room ms

end

end OpGraph.Json
