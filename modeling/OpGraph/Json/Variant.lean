import OpGraph.Json.Reader

/-!
# Variants

A type with named alternatives is read from the name of one, or from a record with that name as
its only member.
-/

namespace OpGraph.Json

/-- A named alternative of a type. -/
inductive Variant (α : Type) : Type 1
  | plain (name : String) (value : α)
  | carrying {β : Type} (name : String) (payload : Reader β) (wrap : β → α) (kind : String)

namespace Variant

variable {α : Type}

def name : Variant α → String
  | plain name _ => name
  | carrying name _ _ _ => name

def alone : Variant α → Except ReadError α
  | plain _ value => .ok value
  | carrying _ _ _ kind => .error (.wrongType .bare (kind ++ " variant"))

def withPayload : Variant α → Reader α
  | plain _ value => Reader.unit.map fun _ => value
  | carrying _ payload wrap _ => payload.map wrap

def select (variants : List (Variant α)) (name : String) (use : Variant α → Except ReadError α) :
    Except ReadError α :=
  match variants.find? fun v => v.name = name with
  | some v => use v
  | none => .error (.unknownVariant name (variants.map Variant.name))

end Variant

/-- A variant is named by a string, or by the only member of a record, which holds what the
variant carries. -/
def Reader.choice {α : Type} (variants : List (Variant α)) : Reader α
  | _, .text (some name) => Variant.select variants name Variant.alone
  | 0, .record _ _ => .error .malformed
  | room + 1, .record ((some name, j) :: ms) ending => do
      let a ← Variant.select variants name fun v => v.withPayload room j
      if ms.isEmpty then
        closing ending
        .ok a
      else .error .malformed
  | _, _ => .error .malformed

end OpGraph.Json
