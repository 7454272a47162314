import OpGraph.Constant
import OpGraph.TypeNames
import OpGraph.Value

/-!
# Nodes

A node is what a framework hands out: an operation, a block, or a whole graph.  An operation has
nested blocks; a block or a graph has a body.  Nothing forbids a node with both or neither, and
what decides then is the body: a node with one is its own single region.
-/

namespace OpGraph

structure Node where
  kind : String
  schema : Option String := none
  /-- The consumed values; of a block or graph, its parameters. -/
  inputs : List Value := []
  /-- The produced values; of a block or graph, its results. -/
  outputs : List Value := []
  blocks : List Node := []
  /-- The contents of a block or graph. -/
  body : Option (List Node) := none

namespace Kind

def graph : String := "prim::Graph"

def block : String := "prim::Block"

def constant : String := "prim::Constant"

end Kind

namespace Node

/-- The nodes whose parameters, results and contents make up the regions. -/
def regions (n : Node) : List Node :=
  match n.body with
  | some _ => [n]
  | none => n.blocks

/-- What a region holds; a block without a body holds nothing. -/
def contents (n : Node) : List Node := n.body.getD []

theorem sizeOf_lt_of_mem_contents {b c : Node} (h : c ∈ b.contents) : sizeOf c < sizeOf b := by
  obtain ⟨kind, schema, inputs, outputs, blocks, body⟩ := b
  cases body with
  | none => simp [contents] at h
  | some cs =>
      have hlt := List.sizeOf_lt_of_mem (show c ∈ cs from h)
      simp only [mk.sizeOf_spec, Option.some.sizeOf_spec]
      omega

theorem sizeOf_le_of_mem_regions {n b : Node} (h : b ∈ n.regions) : sizeOf b ≤ sizeOf n := by
  obtain ⟨kind, schema, inputs, outputs, blocks, body⟩ := n
  cases body with
  | some cs =>
      obtain rfl : b = mk kind schema inputs outputs blocks (some cs) := by simpa [regions] using h
      exact Nat.le_refl _
  | none =>
      have hlt := List.sizeOf_lt_of_mem (show b ∈ blocks from h)
      simp only [mk.sizeOf_spec]
      omega

theorem sizeOf_lt_of_mem_region {n b c : Node} (hb : b ∈ n.regions) (hc : c ∈ b.contents) :
    sizeOf c < sizeOf n :=
  Nat.lt_of_lt_of_le (sizeOf_lt_of_mem_contents hc) (sizeOf_le_of_mem_regions hb)

/-- What holds of a block whenever it holds of the blocks inside its nodes holds of every
block. -/
@[elab_as_elim] theorem block_induction {motive : Node → Prop}
    (step : ∀ b : Node, (∀ n ∈ b.contents, ∀ c ∈ n.regions, motive c) → motive b) (b : Node) :
    motive b :=
  step b fun n hn c hc =>
    have := Nat.lt_of_le_of_lt (sizeOf_le_of_mem_regions hc) (sizeOf_lt_of_mem_contents hn)
    block_induction step c
termination_by sizeOf b

end Node

/-- The constant that a value stands for, if its type and literal agree and its element type is
recognised.  A list of scalars counts as a tensor of rank one. -/
def Value.constant (names : TypeNames) (v : Value) : Option Constant :=
  match v.type, v.literal with
  | .tensor (some name) _, .tensor values => do
      let sizes ← v.type.knownSizes
      let element ← names.get? name
      Constant.ofScalars? element sizes values
  | .scalar name, .scalar value => do
      let element ← names.get? name
      Constant.ofScalars? element [] [value]
  | .list (.scalar name), .list values => do
      let element ← names.get? name
      Constant.ofScalars? element [.ofNat values.length] values
  | _, _ => none

def Value.element (names : TypeNames) (v : Value) : Element :=
  match v.type.elementName with
  | some name => names.lookup name
  | none => .dynamic

/-- The constant that a node produces: that of its first output. -/
def Node.constant (names : TypeNames) (n : Node) : Option Constant :=
  if n.kind = Kind.constant then n.outputs.head?.bind (Value.constant names) else none

end OpGraph
