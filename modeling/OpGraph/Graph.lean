import OpGraph.Dump
import OpGraph.Node

/-!
# Graphs

A graph is a dump that passed its check, with the index of its value table that the check built: no
identity stands twice in the table, and every value that is referred to is defined there.  The check
reports the first defect, and repeated entries of the table come before anything else.
-/

namespace OpGraph

namespace Dump

inductive Defect
  | duplicateValue (id : ValueId)
  | unknownValue (owner : String) (id : ValueId)
  deriving DecidableEq, Repr

def Defect.message : Defect → String
  | .duplicateValue id => "Value " ++ id.text ++ " is defined more than once"
  | .unknownValue owner id => owner ++ " references undefined value " ++ id.text

/-- Where the entries of a value table stand, by their identities. -/
structure Index where
  positions : List (ValueId × Nat)
  deriving DecidableEq, Repr

namespace Index

def empty : Index := ⟨[]⟩

def position? (index : Index) (id : ValueId) : Option Nat := index.positions.lookup id

def insert (index : Index) (id : ValueId) (position : Nat) : Index :=
  ⟨(id, position) :: index.positions⟩

instance : Membership ValueId Index := ⟨fun index id => (index.position? id).isSome⟩

instance (index : Index) (id : ValueId) : Decidable (id ∈ index) :=
  inferInstanceAs (Decidable ((index.position? id).isSome = true))

/-- Enters what stands from a position on, up to the first identity that is there already. -/
def enter (index : Index) (position : Nat) : List Entry → Except Defect Index
  | [] => .ok index
  | e :: rest =>
      if e.id ∈ index then .error (.duplicateValue e.id)
      else (index.insert e.id position).enter (position + 1) rest

def ofEntries (es : List Entry) : Except Defect Index := empty.enter 0 es

end Index

/-- Fails at the first identity that is not defined. -/
def checkDefined (index : Index) (owner : String) : List ValueId → Except Defect Unit
  | [] => .ok ()
  | id :: rest =>
      if id ∈ index then checkDefined index owner rest else .error (.unknownValue owner id)

mutual

def Node.check (index : Index) : Node → Except Defect Unit
  | ⟨kind, _, inputs, outputs, blocks⟩ => do
      checkDefined index kind inputs
      checkDefined index kind outputs
      checkBlocks index blocks

def checkBlocks (index : Index) : List Block → Except Defect Unit
  | [] => .ok ()
  | b :: rest => do
      b.check index
      checkBlocks index rest

def Block.check (index : Index) : Block → Except Defect Unit
  | ⟨inputs, outputs, nodes⟩ => do
      checkDefined index Kind.block inputs
      checkDefined index Kind.block outputs
      checkNodes index nodes

def checkNodes (index : Index) : List Node → Except Defect Unit
  | [] => .ok ()
  | n :: rest => do
      n.check index
      checkNodes index rest

end

def checkReferences (index : Index) (d : Dump) : Except Defect Unit := do
  checkDefined index Kind.graph d.inputs
  checkDefined index Kind.graph d.outputs
  checkNodes index d.nodes

/-- Gives the index of the value table. -/
def check (d : Dump) : Except Defect Index := do
  let index ← Index.ofEntries d.values
  d.checkReferences index
  .ok index

/-- A value as nodes refer to it.  Nothing is known of one that has no entry. -/
def valueOf (id : ValueId) : Option Entry → Value
  | some e => ⟨id, e.type, e.literal.getD .unsupported, e.type = .absent⟩
  | none => ⟨id, .unknownTensor, .unsupported, false⟩

mutual

def Node.resolve (lookup : ValueId → Value) : Node → OpGraph.Node
  | ⟨kind, schema, inputs, outputs, blocks⟩ =>
      .mk kind schema (inputs.map lookup) (outputs.map lookup) (resolveBlocks lookup blocks) none

def resolveBlocks (lookup : ValueId → Value) : List Block → List OpGraph.Node
  | [] => []
  | b :: rest => b.resolve lookup :: resolveBlocks lookup rest

def Block.resolve (lookup : ValueId → Value) : Block → OpGraph.Node
  | ⟨inputs, outputs, nodes⟩ =>
      .mk Kind.block none (inputs.map lookup) (outputs.map lookup) []
        (some (resolveNodes lookup nodes))

def resolveNodes (lookup : ValueId → Value) : List Node → List OpGraph.Node
  | [] => []
  | n :: rest => n.resolve lookup :: resolveNodes lookup rest

end

def resolve (lookup : ValueId → Value) (d : Dump) : OpGraph.Node :=
  .mk Kind.graph none (d.inputs.map lookup) (d.outputs.map lookup) []
    (some (resolveNodes lookup d.nodes))

end Dump

/-- A dump in which every reference is defined once, with the places of the definitions. -/
structure Graph where
  dump : Dump
  index : Dump.Index
  checked : dump.check = .ok index

namespace Graph

def ofDump (d : Dump) : Except Dump.Defect Graph :=
  match h : d.check with
  | .ok index => .ok ⟨d, index, h⟩
  | .error e => .error e

def entry? (g : Graph) (id : ValueId) : Option Dump.Entry :=
  (g.index.position? id).bind fun position => g.dump.values[position]?

def value (g : Graph) (id : ValueId) : Value := Dump.valueOf id (g.entry? id)

def root (g : Graph) : Node := g.dump.resolve g.value

end Graph

end OpGraph
