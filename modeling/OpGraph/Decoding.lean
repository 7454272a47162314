import OpGraph.Decoded
import OpGraph.View

/-!
# Decoding a graph

Regions are decoded in their stored order, each through the queries of a view.  The identities
produced so far are kept through the whole graph, so a value with a second producer is found
wherever it is; what is local to a region and what it captures is kept for that region only.
-/

namespace OpGraph

namespace View

/-- The inputs, each asked for by its index. -/
def decodedInputs (v : View) : Except Fault (List Decoded.Value) :=
  (List.range (v.count .input)).mapM fun index => do
    let id ← v.id .input index
    let shape ← v.shape .input index
    let element ← v.element .input index
    .ok ⟨id, shape, element, v.inputAbsent index⟩

/-- The outputs, each described from what the view finds at its index. -/
def decodedOutputs (v : View) : Except Fault (List Decoded.Value) :=
  (List.range (v.count .output)).mapM fun index =>
    (v.value .output index).map (.of v.names)

end View

/-- An action that keeps the identities produced so far. -/
abbrev Walk (α : Type) := View.Visit (List ValueId) α

/-- Records a value that something of one kind produces; each may be produced only once. -/
def produce (kind : String) (id : ValueId) : Walk Unit := do
  let produced ← get
  if id ∈ produced then throw (.duplicateProducer kind id)
  set (id :: produced)

/-- A region while its nodes are decoded. -/
structure Scope where
  locals : List ValueId
  captures : List ValueId := []
  nodes : List Decoded.Node := []

namespace Scope

variable {α : Type}

def use (ids : List ValueId) (s : Scope) : Scope :=
  { s with captures := Decoded.addCaptures s.locals s.captures ids }

def own (id : ValueId) (s : Scope) : Scope := { s with locals := id :: s.locals }

def keep (node : Decoded.Node) (s : Scope) : Scope := { s with nodes := s.nodes ++ [node] }

abbrev Act (α : Type) := View.Visit (List ValueId × Scope) α

/-- Runs an action that only looks at what was produced. -/
def outer (act : Walk α) : Act α := ExceptT.mk fun (produced, s) =>
  let (result, produced) := act.run.run produced
  (result, produced, s)

def change (f : Scope → Scope) : Act Unit := modify fun (produced, s) => (produced, f s)

/-- Takes in a decoded node: first what it uses, and then what it produces. -/
def add (node : Decoded.Node) : Act Unit := do
  change (use node.uses)
  (Decoded.ids node.outputs).forM fun id => do
    outer (produce node.kind id)
    change (own id)
  change (keep node)

/-- Runs an action in a region of which only the parameters are known. -/
def enter (parameters : List ValueId) (act : Act Unit) : Walk Scope :=
  ExceptT.mk fun produced =>
    let (result, produced, s) := act.run.run (produced, { locals := parameters })
    (result.map fun () => s, produced)

end Scope

namespace View

mutual

/-- Decodes a node: first its regions, then what it says of itself. -/
def decodeNode (v : View) : Walk Decoded.Node := do
  let regions ← (List.range v.regionCount).mapM fun index => v.decodeRegion index
  let inputs ← liftExcept v.decodedInputs
  let outputs ← liftExcept v.decodedOutputs
  return ⟨v.kind, v.schema, inputs, outputs, v.constant.map .of, regions⟩
termination_by (sizeOf v.node, 1)

/-- Decodes a region: its parameters are produced by the block, and then come its nodes. -/
def decodeRegion (v : View) (index : Nat) : Walk Decoded.Region := do
  let block ← liftExcept (v.region index)
  let inputs ← liftExcept block.decodedInputs
  let outputs ← liftExcept block.decodedOutputs
  (Decoded.ids inputs).forM (produce block.kind)
  let s ← Scope.enter (Decoded.ids inputs) <| v.visitChildren index fun c h => do
    have := sizeOf_lt_of_mem_children h
    let node ← Scope.outer c.decodeNode
    Scope.add node
  let s := s.use (Decoded.ids outputs)
  return ⟨inputs, outputs, s.captures, s.nodes⟩
termination_by (sizeOf v.node, 0)

end

def decode (v : View) : Except Fault Decoded.Graph :=
  if v.regionCount = 1 then
    ((v.decodeRegion 0).run.run []).1.map fun body => ⟨v.kind, body⟩
  else
    .error (.custom (v.kind ++
      s!": model should have exactly 1 region, found {v.regionCount}"))

end View

end OpGraph
