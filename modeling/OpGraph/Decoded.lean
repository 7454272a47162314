import OpGraph.Node

/-!
# Decoded graphs

The plain result of decoding: every value is described by its identity, shape and element type,
and every region lists the values it uses from outside.
-/

namespace OpGraph.Decoded

structure Value where
  id : ValueId
  shape : Shape
  element : Element
  absent : Bool
  deriving DecidableEq, Repr

structure Constant where
  element : Element
  shape : List UInt64
  values : List Scalar
  deriving DecidableEq, Repr

mutual

structure Node where
  kind : String
  schema : Option String
  inputs : List Value
  outputs : List Value
  constant : Option Constant
  regions : List Region

structure Region where
  inputs : List Value
  outputs : List Value
  /-- The values that are used here and produced outside, in the order of their first use. -/
  captures : List ValueId
  nodes : List Node

end

structure Graph where
  kind : String
  body : Region

def Value.of (names : TypeNames) (v : OpGraph.Value) : Value :=
  ⟨v.id, v.shape, v.element names, v.absent⟩

def Constant.of (c : OpGraph.Constant) : Constant :=
  ⟨c.element, c.shape, c.scalars.getD []⟩

def ids (values : List Value) : List ValueId := values.map Value.id

/-! ## Captures -/

/-- Adds the identities that are neither local nor listed yet. -/
def addCaptures (locals : List ValueId) : (captures ids : List ValueId) → List ValueId
  | captures, [] => captures
  | captures, id :: rest =>
      if id ∈ locals ∨ id ∈ captures then addCaptures locals captures rest
      else addCaptures locals (captures ++ [id]) rest

/-- What a node takes from around it: its inputs, then what its regions capture. -/
def Node.uses (n : Node) : List ValueId :=
  ids n.inputs ++ n.regions.flatMap Region.captures

/-! ## Counting -/

mutual

def Node.count : Node → Nat
  | ⟨_, _, _, _, _, regions⟩ => countRegions regions + 1

def countRegions : List Region → Nat
  | [] => 0
  | r :: rest => r.count + countRegions rest

def Region.count : Region → Nat
  | ⟨_, _, _, nodes⟩ => countNodes nodes

def countNodes : List Node → Nat
  | [] => 0
  | n :: rest => n.count + countNodes rest

end

def Graph.count (g : Graph) : Nat := g.body.count

/-! ## Writing

Flags that are false, schemas and constants that are absent, and captures and regions that are
empty are left out. -/

def Value.json (v : Value) : Json :=
  .object <|
    [("id", v.id.json), ("shape", v.shape.json), ("elem_type", v.element.json)] ++
      if v.absent then [("none", .bool true)] else []

def Constant.json (c : Constant) : Json :=
  .object
    [("elem_type", c.element.json), ("shape", .array (c.shape.map Json.size)),
      ("values", .array (c.values.map Scalar.json))]

/-- A member that is left out when there is nothing to write. -/
def member (name : String) : Option Json → List (String × Json)
  | some j => [(name, j)]
  | none => []

def listMember (name : String) (items : List Json) : List (String × Json) :=
  if items.isEmpty then [] else [(name, .array items)]

mutual

def Node.json : Node → Json
  | ⟨kind, schema, inputs, outputs, constant, regions⟩ =>
      .object <|
        [("kind", .string kind)] ++ member "schema" (schema.map Json.string) ++
          [("inputs", .array (inputs.map Value.json)),
            ("outputs", .array (outputs.map Value.json))] ++
          member "constant" (constant.map Constant.json) ++
          listMember "regions" (regionsJson regions)

def regionsJson : List Region → List Json
  | [] => []
  | r :: rest => .object r.members :: regionsJson rest

def Region.members : Region → List (String × Json)
  | ⟨inputs, outputs, captures, nodes⟩ =>
      [("inputs", .array (inputs.map Value.json)),
        ("outputs", .array (outputs.map Value.json))] ++
        listMember "captures" (captures.map ValueId.json) ++
        [("nodes", .array (nodesJson nodes))]

def nodesJson : List Node → List Json
  | [] => []
  | n :: rest => n.json :: nodesJson rest

end

def Graph.json (g : Graph) : Json := .object (("kind", .string g.kind) :: g.body.members)

end OpGraph.Decoded
