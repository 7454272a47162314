import OpGraph.Proofs.Indexing
import OpGraph.Proofs.Walk

/-!
# Decoding keeps the stored graph

A decoded graph with everything but its identities taken away is the stored graph it was decoded
from: every node, block and edge is there once and in its place.
-/

namespace OpGraph

/-! ## Erasing -/

namespace Decoded

mutual

def Node.erase : Node → Dump.Node
  | ⟨kind, schema, inputs, outputs, _, regions⟩ =>
      ⟨kind, schema, ids inputs, ids outputs, eraseRegions regions⟩

def eraseRegions : List Region → List Dump.Block
  | [] => []
  | r :: rest => r.erase :: eraseRegions rest

def Region.erase : Region → Dump.Block
  | ⟨inputs, outputs, _, nodes⟩ => ⟨ids inputs, ids outputs, eraseNodes nodes⟩

def eraseNodes : List Node → List Dump.Node
  | [] => []
  | n :: rest => n.erase :: eraseNodes rest

end

end Decoded

namespace Dump

mutual

/-- The number of stored nodes from here on, at any depth. -/
def Node.count : Node → Nat
  | ⟨_, _, _, _, blocks⟩ => countBlocks blocks + 1

def countBlocks : List Block → Nat
  | [] => 0
  | b :: rest => b.count + countBlocks rest

def Block.count : Block → Nat
  | ⟨_, _, nodes⟩ => countNodes nodes

def countNodes : List Node → Nat
  | [] => 0
  | n :: rest => n.count + countNodes rest

end

end Dump

namespace Decoded

mutual

theorem Node.count_erase : (n : Node) → n.erase.count = n.count
  | ⟨_, _, _, _, _, regions⟩ => congrArg (· + 1) (countBlocks_eraseRegions regions)

theorem countBlocks_eraseRegions :
    (rs : List Region) → Dump.countBlocks (eraseRegions rs) = countRegions rs
  | [] => rfl
  | r :: rest => congrArg₂ (· + ·) r.count_erase (countBlocks_eraseRegions rest)

theorem Region.count_erase : (r : Region) → r.erase.count = r.count
  | ⟨_, _, _, nodes⟩ => countNodes_eraseNodes nodes

theorem countNodes_eraseNodes :
    (ns : List Node) → Dump.countNodes (eraseNodes ns) = countNodes ns
  | [] => rfl
  | n :: rest => congrArg₂ (· + ·) n.count_erase (countNodes_eraseNodes rest)

end

end Decoded

/-! ## Resolving, describing and erasing -/

namespace Dump

theorem value_id (d : Dump) (id : ValueId) : (d.value id).id = id := by
  rw [value]
  cases d.entry? id <;> rfl

variable (d : Dump) (names : TypeNames)

theorem ids_map_value (is : List ValueId) :
    Decoded.ids ((is.map d.value).map (.of names)) = is := by
  rw [Decoded.ids_map_of, List.map_map]
  exact List.map_id'' d.value_id is

mutual

theorem Node.erase_described_resolve :
    (n : Node) → ((n.resolve d.value).described names).erase = n
  | ⟨kind, schema, inputs, outputs, blocks⟩ => by
      have hblocks := eraseRegions_describedBlocks_resolveBlocks blocks
      simp only [Node.resolve, OpGraph.Node.described, Decoded.Node.erase, ids_map_value, hblocks]

theorem eraseRegions_describedBlocks_resolveBlocks :
    (bs : List Block) →
      Decoded.eraseRegions (describedBlocks names (resolveBlocks d.value bs)) = bs
  | [] => rfl
  | b :: rest =>
      congrArg₂ List.cons b.erase_describedBlock_resolve
        (eraseRegions_describedBlocks_resolveBlocks rest)

theorem Block.erase_describedBlock_resolve :
    (b : Block) → ((b.resolve d.value).describedBlock names).erase = b
  | ⟨inputs, outputs, nodes⟩ => by
      have hnodes := eraseNodes_describedContents_resolveNodes nodes
      simp only [Block.resolve, OpGraph.Node.describedBlock, Decoded.Region.of,
        Decoded.Region.erase, ids_map_value, hnodes]

theorem eraseNodes_describedContents_resolveNodes :
    (ns : List Node) →
      Decoded.eraseNodes (describedContents names (resolveNodes d.value ns)) = ns
  | [] => rfl
  | n :: rest =>
      congrArg₂ List.cons n.erase_described_resolve
        (eraseNodes_describedContents_resolveNodes rest)

end

theorem erase_describedBlock_root :
    (d.root.describedBlock names).erase = ⟨d.inputs, d.outputs, d.nodes⟩ := by
  have hnodes := eraseNodes_describedContents_resolveNodes d names d.nodes
  simp only [root, resolve, Node.describedBlock, Decoded.Region.of, Decoded.Region.erase, ids_map_value,
    hnodes]

end Dump

namespace Graph

/-- A graph that passed its check and is decoded comes back when its identities are all that is
kept, and the decoded nodes are as many as the stored ones. -/
theorem erase_body_of_decode_eq_ok {d : Dump} {g : Graph} (hg : ofDump d = .ok g)
    {names : TypeNames} {decoded : Decoded.Graph}
    (h : (⟨g.root, names⟩ : View).decode = .ok decoded) :
    decoded.body.erase = ⟨d.inputs, d.outputs, d.nodes⟩ ∧
      decoded.count = Dump.countNodes d.nodes := by
  rw [root_of_ofDump_eq_ok hg] at h
  obtain ⟨block, hblock, rfl, _⟩ := View.exists_region_of_decode_eq_ok h
  obtain rfl : d.root = block := List.singleton_inj.mp hblock
  have herase := d.erase_describedBlock_root names
  refine ⟨herase, ?_⟩
  have hcount := (d.root.describedBlock names).count_erase
  rw [herase] at hcount
  exact hcount.symm

/-- A stored branch with two sides, one of them empty. -/
def branch : Dump where
  values := [⟨⟨0⟩, .scalar "bool", none⟩, ⟨⟨1⟩, .unknownTensor, none⟩, ⟨⟨2⟩, .absent, none⟩]
  inputs := [⟨0⟩]
  outputs := [⟨1⟩]
  nodes :=
    [{ kind := "prim::If", inputs := [⟨0⟩], outputs := [⟨1⟩],
       blocks :=
         [{ outputs := [⟨2⟩], nodes := [{ kind := "aten::relu", schema := some "relu(Tensor)",
                                          inputs := [⟨0⟩, ⟨0⟩], outputs := [⟨2⟩] }] },
          { outputs := [⟨0⟩] }] }]

theorem erase_body_branch :
    ∃ g decoded, ofDump branch = .ok g ∧
      (⟨g.root, .empty⟩ : View).decode = .ok decoded ∧
      decoded.body.erase = ⟨branch.inputs, branch.outputs, branch.nodes⟩ ∧ decoded.count = 2 := by
  have hg : ofDump branch = .ok ⟨branch, _, rfl⟩ := rfl
  have h : (⟨branch.root, .empty⟩ : View).decode =
      .ok ⟨Kind.graph, branch.root.describedBlock .empty⟩ := by
    rw [View.decode_of_regions (show branch.root.regions = [branch.root] from rfl)]
    rfl
  rw [← root_of_ofDump_eq_ok hg] at h
  exact ⟨_, _, hg, h, erase_body_of_decode_eq_ok hg h⟩

end Graph

end OpGraph
