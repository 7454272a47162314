import OpGraph.Graph

/-!
# Drafts

A draft is a dump under construction, with the number that the next value gets as its identity.
Nodes are made apart, with their blocks, and then appended.
-/

namespace OpGraph

namespace Dump

namespace Node

def constant (output : ValueId) : Node := ⟨Kind.constant, none, [], [output], []⟩

def setSchema (n : Node) (schema : String) : Node := { n with schema := some schema }

def addInputs (n : Node) (ids : List ValueId) : Node := { n with inputs := n.inputs ++ ids }

def addOutputs (n : Node) (ids : List ValueId) : Node := { n with outputs := n.outputs ++ ids }

def addBlock (n : Node) (b : Block) : Node := { n with blocks := n.blocks ++ [b] }

end Node

namespace Block

def addInputs (b : Block) (ids : List ValueId) : Block := { b with inputs := b.inputs ++ ids }

def addOutputs (b : Block) (ids : List ValueId) : Block := { b with outputs := b.outputs ++ ids }

def addNode (b : Block) (n : Node) : Block := { b with nodes := b.nodes ++ [n] }

end Block

end Dump

structure Draft where
  dump : Dump
  nextNumber : UInt64

namespace Draft

def empty : Draft := ⟨⟨[], [], [], []⟩, 0⟩

def next (d : Draft) : ValueId := ⟨d.nextNumber⟩

inductive Step
  | value (type : ValueType)
  | literal (type : ValueType) (literal : Literal)
  /-- The value that stands for none. -/
  | absent
  /-- A value that is a parameter of the graph. -/
  | input (type : ValueType)
  /-- A value with the node that produces it. -/
  | constant (type : ValueType) (literal : Literal)
  | node (node : Dump.Node)
  | output (id : ValueId)

def addValue (d : Draft) (type : ValueType) (literal : Option Literal) : Draft where
  dump := { d.dump with values := d.dump.values ++ [⟨d.next, type, literal⟩] }
  nextNumber := d.nextNumber + 1

def addInput (d : Draft) (id : ValueId) : Draft :=
  { d with dump := { d.dump with inputs := d.dump.inputs ++ [id] } }

def addOutput (d : Draft) (id : ValueId) : Draft :=
  { d with dump := { d.dump with outputs := d.dump.outputs ++ [id] } }

def addNode (d : Draft) (n : Dump.Node) : Draft :=
  { d with dump := { d.dump with nodes := d.dump.nodes ++ [n] } }

/-- Takes a step; one that makes a value gives its identity. -/
def step (d : Draft) : Step → Draft × Option ValueId
  | .value type => (d.addValue type none, some d.next)
  | .literal type literal => (d.addValue type (some literal), some d.next)
  | .absent => (d.addValue .absent none, some d.next)
  | .input type => ((d.addValue type none).addInput d.next, some d.next)
  | .constant type literal =>
      ((d.addValue type (some literal)).addNode (.constant d.next), some d.next)
  | .node n => (d.addNode n, none)
  | .output id => (d.addOutput id, none)

def run (d : Draft) : List Step → Draft × List (Option ValueId)
  | [] => (d, [])
  | s :: rest =>
      let (d, id) := d.step s
      let (d, ids) := d.run rest
      (d, id :: ids)

def build (d : Draft) : Except Dump.Defect Graph := Graph.ofDump d.dump

end Draft

end OpGraph
