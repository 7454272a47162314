import OpGraph.Decoded

/-!
# Descriptions

What a node or a block is decoded to when nothing stands in the way.  A description does not
depend on what was produced before, so it is a plain function of the node and the names.
-/

namespace OpGraph

namespace Decoded

/-- The captures of a region from some node on; what a node produces is local afterwards, and the
results of the region come last. -/
def capturesFrom (results locals captures : List ValueId) : List Node → List ValueId
  | [] => addCaptures locals captures results
  | n :: rest =>
      capturesFrom results ((ids n.outputs).reverse ++ locals) (addCaptures locals captures n.uses)
        rest

def Region.of (inputs outputs : List Value) (nodes : List Node) : Region :=
  ⟨inputs, outputs, capturesFrom (ids outputs) (ids inputs) [] nodes, nodes⟩

@[simp] theorem ids_map_of (names : TypeNames) (values : List OpGraph.Value) :
    ids (values.map (Value.of names)) = values.map OpGraph.Value.id := by
  simp [ids, Value.of, Function.comp_def]

end Decoded

mutual

/-- What a node is decoded to. -/
def Node.described (names : TypeNames) : Node → Decoded.Node
  | .mk kind schema inputs outputs blocks body =>
      ⟨kind, schema, inputs.map (.of names), outputs.map (.of names),
        ((Node.mk kind schema inputs outputs blocks body).constant names).map .of,
        match body with
        | some contents =>
            [.of (inputs.map (.of names)) (outputs.map (.of names))
              (describedContents names contents)]
        | none => describedBlocks names blocks⟩

def describedContents (names : TypeNames) : List Node → List Decoded.Node
  | [] => []
  | n :: rest => n.described names :: describedContents names rest

/-- What the region behind a block is decoded to. -/
def Node.describedBlock (names : TypeNames) : Node → Decoded.Region
  | .mk _ _ inputs outputs _ body =>
      .of (inputs.map (.of names)) (outputs.map (.of names))
        (match body with
        | some contents => describedContents names contents
        | none => [])

def describedBlocks (names : TypeNames) : List Node → List Decoded.Region
  | [] => []
  | b :: rest => b.describedBlock names :: describedBlocks names rest

end

theorem describedContents_eq_map (names : TypeNames) (ns : List Node) :
    describedContents names ns = ns.map (Node.described names) := by
  induction ns with
  | nil => rfl
  | cons n ns ih => exact congrArg (n.described names :: ·) ih

theorem describedBlocks_eq_map (names : TypeNames) (bs : List Node) :
    describedBlocks names bs = bs.map (Node.describedBlock names) := by
  induction bs with
  | nil => rfl
  | cons b bs ih => exact congrArg (b.describedBlock names :: ·) ih

namespace Node

variable (names : TypeNames)

theorem describedBlock_eq (b : Node) :
    b.describedBlock names = .of (b.inputs.map (.of names)) (b.outputs.map (.of names))
      (b.contents.map (described names)) := by
  obtain ⟨kind, schema, inputs, outputs, blocks, body⟩ := b
  cases body with
  | none => rfl
  | some contents => simp [describedBlock, Node.contents, describedContents_eq_map]

theorem described_eq (n : Node) :
    n.described names =
      ⟨n.kind, n.schema, n.inputs.map (.of names), n.outputs.map (.of names),
        (n.constant names).map .of, n.regions.map (describedBlock names)⟩ := by
  obtain ⟨kind, schema, inputs, outputs, blocks, body⟩ := n
  cases body with
  | none => simp [described, regions, describedBlocks_eq_map]
  | some contents => simp [described, regions, describedBlock]

@[simp] theorem described_kind (n : Node) : (n.described names).kind = n.kind := by
  rw [described_eq]

@[simp] theorem described_inputs (n : Node) :
    (n.described names).inputs = n.inputs.map (.of names) := by
  rw [described_eq]

@[simp] theorem described_outputs (n : Node) :
    (n.described names).outputs = n.outputs.map (.of names) := by
  rw [described_eq]

@[simp] theorem described_regions (n : Node) :
    (n.described names).regions = n.regions.map (describedBlock names) := by
  rw [described_eq]

end Node

end OpGraph
