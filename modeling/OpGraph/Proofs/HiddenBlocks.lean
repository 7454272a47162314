import OpGraph.Proofs.Composition
import OpGraph.Proofs.Recognition
import OpGraph.Proofs.RegionQueries

/-!
# Hidden blocks

No region is made of the blocks that a node has besides a body, nor of those that a block has
instead of one.  Such blocks stay hidden: graphs that differ in nothing else are decoded alike, and
a block without a body is a region without nodes, whatever blocks it has.
-/

namespace OpGraph

namespace Node

/-! ## Graphs alike but for hidden blocks -/

/-- What nodes say of themselves, their bodies and blocks aside, is the same. -/
structure SameFace (n m : Node) : Prop where
  kind : n.kind = m.kind
  schema : n.schema = m.schema
  inputs : n.inputs = m.inputs
  outputs : n.outputs = m.outputs

mutual

/-- Nodes that differ only by hidden blocks, at any depth. -/
inductive Alike : Node → Node → Prop
  | body {n m : Node} {ns ms : List Node} (face : n.SameFace m) (hn : n.body = some ns)
      (hm : m.body = some ms) (contents : List.Forall₂ Alike ns ms) : Alike n m
  | blocks {n m : Node} (face : n.SameFace m) (hn : n.body = none) (hm : m.body = none)
      (blocks : List.Forall₂ BlockAlike n.blocks m.blocks) : Alike n m

/-- Blocks of regions that differ only by hidden blocks.  The blocks of a block are hidden. -/
inductive BlockAlike : Node → Node → Prop
  | body {b c : Node} {ns ms : List Node} (face : b.SameFace c) (hb : b.body = some ns)
      (hc : c.body = some ms) (contents : List.Forall₂ Alike ns ms) : BlockAlike b c
  | bare {b c : Node} (face : b.SameFace c) (hb : b.body = none) (hc : c.body = none) :
      BlockAlike b c

end

variable {n m b c : Node}

theorem Alike.face (h : n.Alike m) : n.SameFace m := by
  cases h <;> assumption

theorem BlockAlike.face (h : b.BlockAlike c) : b.SameFace c := by
  cases h <;> assumption

theorem Alike.regions (h : n.Alike m) : List.Forall₂ BlockAlike n.regions m.regions := by
  cases h with
  | body face hn hm contents =>
      rw [Node.regions, Node.regions, hn, hm]
      exact .cons (.body face hn hm contents) .nil
  | blocks face hn hm blocks =>
      rw [Node.regions, Node.regions, hn, hm]
      exact blocks

theorem BlockAlike.contents (h : b.BlockAlike c) :
    List.Forall₂ Alike b.contents c.contents := by
  cases h with
  | body face hb hc contents =>
      rw [Node.contents, Node.contents, hb, hc]
      exact contents
  | bare face hb hc =>
      rw [Node.contents, Node.contents, hb, hc]
      exact .nil

/-! ## What decoding cannot tell apart -/

/-- Nodes that produce the same and have the same description. -/
structure Indistinct (n m : Node) : Prop where
  productions : n.productions = m.productions
  described : ∀ names, n.described names = m.described names

/-- Blocks that produce the same and have the same description. -/
structure BlockIndistinct (b c : Node) : Prop where
  productions : ∀ owner region, b.blockProductions owner region = c.blockProductions owner region
  described : ∀ names, b.describedBlock names = c.describedBlock names

theorem blocksProductions_eq {bs cs : List Node} (h : List.Forall₂ BlockIndistinct bs cs)
    (owner : String) (region : Nat) :
    blocksProductions owner region bs = blocksProductions owner region cs := by
  induction h generalizing region with
  | nil => rfl
  | cons hbc _ ih => rw [blocksProductions, blocksProductions, hbc.productions, ih]

theorem contentsProductions_eq {ns ms : List Node} (h : List.Forall₂ Indistinct ns ms)
    (owner : String) (region position : Nat) :
    contentsProductions owner region position ns =
      contentsProductions owner region position ms := by
  induction h generalizing position with
  | nil => rfl
  | cons hnm _ ih => rw [contentsProductions_cons, contentsProductions_cons, hnm.productions, ih]

theorem SameFace.indistinct (face : n.SameFace m)
    (h : List.Forall₂ BlockIndistinct n.regions m.regions) : n.Indistinct m where
  productions := by
    rw [Node.productions, Node.productions, innerProductions_eq, innerProductions_eq, face.kind,
      face.outputs, blocksProductions_eq h]
  described names := by
    have hregions := Decoded.map_eq_of_forall₂ (fun _ _ h => (h.described names).symm) h
    have hconstant : n.constant names = m.constant names := by
      rw [constant, constant, face.kind, face.outputs]
    rw [described_eq, described_eq, face.kind, face.schema, face.inputs, face.outputs, hconstant,
      hregions]

theorem SameFace.blockIndistinct (face : b.SameFace c)
    (h : List.Forall₂ Indistinct b.contents c.contents) : b.BlockIndistinct c where
  productions owner region := by
    rw [blockProductions_eq, blockProductions_eq, face.kind, face.inputs, contentsProductions_eq h]
  described names := by
    have hcontents := Decoded.map_eq_of_forall₂ (fun _ _ h => (h.described names).symm) h
    rw [describedBlock_eq, describedBlock_eq, face.inputs, face.outputs, hcontents]

theorem BlockAlike.indistinct (h : b.BlockAlike c) : b.BlockIndistinct c := by
  induction b using block_induction generalizing c with
  | step b ih =>
      have hnode (n : Node) (hn : n ∈ b.contents) (m : Node) (h : n.Alike m) : n.Indistinct m := by
        have hregions := (List.forall₂_and_left _ _).mpr ⟨ih n hn, h.regions⟩
        exact h.face.indistinct (hregions.imp fun _ _ ⟨hd, hde⟩ => hd hde)
      have hcontents := (List.forall₂_and_left _ _).mpr ⟨hnode, h.contents⟩
      exact h.face.blockIndistinct (hcontents.imp fun _ m ⟨hn, hnm⟩ => hn m hnm)

theorem Alike.forall₂_indistinct (h : n.Alike m) :
    List.Forall₂ BlockIndistinct n.regions m.regions :=
  h.regions.imp fun _ _ => BlockAlike.indistinct

end Node

namespace View

variable {n m : Node} {v o inner : View} {index j : Nat}

/-! ## Decoding graphs that are alike -/

theorem decode_of_alike (h : n.Alike m) (names : TypeNames) :
    (⟨n, names⟩ : View).decode = (⟨m, names⟩ : View).decode := by
  have hkind : (⟨n, names⟩ : View).kind = (⟨m, names⟩ : View).kind := h.face.kind
  have hcount : (⟨n, names⟩ : View).regionCount = (⟨m, names⟩ : View).regionCount := by
    rw [regionCount_eq, regionCount_eq, h.regions.length_eq]
  by_cases hone : (⟨n, names⟩ : View).regionCount = 1
  · obtain ⟨b, hb⟩ := exists_regions_of_regionCount_eq_one hone
    have hregions := h.forall₂_indistinct
    rw [hb] at hregions
    obtain ⟨c, _, hbc, hnil, hc⟩ := List.forall₂_cons_left_iff.mp hregions
    rw [List.forall₂_nil_left_iff.mp hnil] at hc
    have hproductions : (⟨n, names⟩ : View).productions 0 = (⟨m, names⟩ : View).productions 0 := by
      rw [productions_eq (b := b) (by rw [hb]; rfl), productions_eq (b := c) (by rw [hc]; rfl),
        hbc.productions, hkind]
    rw [decode_of_regions hb, decode_of_regions hc, hproductions, hbc.described, hkind]
  · rw [decode, decode, if_neg hone, if_neg (hcount ▸ hone), hkind, hcount]

/-! ## Regions without nodes -/

theorem visited_eq_error_of_le (h : v.regionCount ≤ index) :
    v.visited index = .error (.regionOutOfRange v.kind index v.regionCount) := by
  rw [visited, Visit.outcome, run_visit_of_regionCount_le h]
  rfl

theorem exists_region_of_owner {a : Decoded.Address} (howner : v.owner? index a = some (o, j))
    (hinner : o.region j = .ok inner) : ∃ block, v.region index = .ok block := by
  cases a with
  | nil =>
      cases howner
      exact ⟨inner, hinner⟩
  | cons step a =>
      rw [exists_region_eq_ok_iff]
      by_contra hle
      rw [owner?, visited_eq_error_of_le (Nat.le_of_not_lt hle)] at howner
      cases howner

/-- The region that a way leads to is the description of the block behind it. -/
theorem at_of_owner {block : View} (a : Decoded.Address)
    (howner : v.owner? index a = some (o, j)) (hinner : o.region j = .ok inner)
    (hblock : v.region index = .ok block) :
    (block.node.describedBlock v.names).at? a = some (inner.node.describedBlock v.names) := by
  induction a generalizing v index block with
  | nil =>
      cases howner
      cases hblock.symm.trans hinner
      rfl
  | cons step a ih =>
      obtain ⟨p, k⟩ := step
      rw [owner?, visited_eq hblock] at howner
      obtain ⟨c, hc, howner⟩ := Option.bind_eq_some_iff.mp howner
      obtain ⟨n, hn, rfl⟩ := Option.map_eq_some_iff.mp (List.getElem?_map.symm.trans hc)
      obtain ⟨d, hd⟩ := exists_region_of_owner howner hinner
      obtain ⟨hregion, _⟩ := region_eq_ok_iff.mp hd
      have hnode : (block.node.describedBlock v.names).nodes[p]? = some (n.described v.names) := by
        rw [Node.describedBlock_eq, Decoded.Region.of, List.getElem?_map, hn, Option.map_some]
      have hinside : (n.described v.names).regions[k]? = some (d.node.describedBlock v.names) := by
        rw [Node.described_regions, List.getElem?_map, hregion, Option.map_some]
      have hat := ih howner hd
      rw [Decoded.Region.at?, hnode, Option.bind_some, hinside, Option.bind_some, hat]

theorem describedBlock_of_body_eq_none {b : Node} (h : b.body = none) (names : TypeNames) :
    b.describedBlock names =
      { inputs := b.inputs.map (.of names)
        outputs := b.outputs.map (.of names)
        captures := ((b.outputs.map Value.id).filter (· ∉ b.inputs.map Value.id)).eraseDups
        nodes := [] } := by
  have hcontents : b.contents = [] := by rw [Node.contents, h, Option.getD_none]
  have hcaptures := Decoded.addCaptures_eq (b.inputs.map Value.id) [] (b.outputs.map Value.id)
  rw [List.eraseDups_nil, List.nil_append] at hcaptures
  rw [Node.describedBlock_eq, hcontents, List.map_nil, Decoded.Region.of, Decoded.capturesFrom,
    Decoded.ids_map_of, Decoded.ids_map_of, hcaptures]

/-- Hidden blocks have no part in what a graph is decoded to, nor in the fault if it is refused.  A
region whose block has no body has the parameters and results of the block, no nodes, and captures
the results that are not parameters. -/
theorem decode_ignores_hidden_blocks :
    (∀ n m : Node, n.Alike m → ∀ names, (⟨n, names⟩ : View).decode = (⟨m, names⟩ : View).decode) ∧
    ∀ (v : View) (g : Decoded.Graph), v.decode = .ok g →
      ∀ (a : Decoded.Address) (o : View) (j : Nat) (block : View),
        v.owner? 0 a = some (o, j) → o.region j = .ok block → block.node.body = none →
          g.body.at? a = some
            { inputs := block.node.inputs.map (.of v.names)
              outputs := block.node.outputs.map (.of v.names)
              captures := ((block.ids .output).filter (· ∉ block.ids .input)).eraseDups
              nodes := [] } := by
  refine ⟨fun n m h names => decode_of_alike h names, fun v g hg a o j block howner hblock h => ?_⟩
  obtain ⟨b, hb, rfl, _⟩ := exists_region_of_decode_eq_ok hg
  have hregion : v.region 0 = .ok ⟨b, v.names⟩ := region_eq_ok_iff.mpr ⟨by rw [hb]; rfl, rfl⟩
  rw [at_of_owner a howner hblock hregion, describedBlock_of_body_eq_none h]
  rfl

/-- A graph with stray blocks besides its body, around a node with two regions: one without a body,
that gives `%1` and `%0` back, and one with a body.  Both have stray blocks as well. -/
def muddled (stray : List Node) : Node :=
  let value (n : UInt64) : Value := { id := ⟨n⟩, type := .unknownTensor }
  let bare : Node :=
    { kind := Kind.block, inputs := [value 0], outputs := [value 1, value 0, value 1],
      blocks := stray }
  let relu : Node := { kind := "aten::relu", inputs := [value 1], outputs := [value 3] }
  let full : Node := { kind := Kind.block, blocks := stray, body := some [relu] }
  let branch : Node := { kind := "prim::If", outputs := [value 2], blocks := [bare, full] }
  { kind := Kind.graph, inputs := [value 1], outputs := [value 2], blocks := stray,
    body := some [branch] }

theorem alike_muddled (stray stray' : List Node) : (muddled stray).Alike (muddled stray') := by
  have hface (n : Node) : n.SameFace n := ⟨rfl, rfl, rfl, rfl⟩
  refine .body ⟨rfl, rfl, rfl, rfl⟩ rfl rfl (.cons ?_ .nil)
  refine .blocks ⟨rfl, rfl, rfl, rfl⟩ rfl rfl (.cons ?_ (.cons ?_ .nil))
  · exact .bare ⟨rfl, rfl, rfl, rfl⟩ rfl rfl
  · refine .body ⟨rfl, rfl, rfl, rfl⟩ rfl rfl (.cons ?_ .nil)
    exact .blocks (hface _) rfl rfl .nil

/-- A stray block that would produce `%1` a second time. -/
def strayBlocks : List Node :=
  [{ kind := Kind.block, inputs := [{ id := ⟨1⟩, type := .unknownTensor }], body := some [] }]

theorem decode_ignores_hidden_blocks_muddled :
    (muddled strayBlocks).Alike (muddled []) ∧ muddled strayBlocks ≠ muddled [] ∧
    (⟨muddled strayBlocks, .empty⟩ : View).decode = (⟨muddled [], .empty⟩ : View).decode ∧
    ∃ (g : Decoded.Graph) (o block : View),
      (⟨muddled strayBlocks, .empty⟩ : View).decode = .ok g ∧
      (⟨muddled strayBlocks, .empty⟩ : View).owner? 0 [(0, 0)] = some (o, 0) ∧
      o.region 0 = .ok block ∧ block.node.body = none ∧
      (g.body.at? [(0, 0)]).map Decoded.Region.captures = some [⟨1⟩] := by
  have hdecode : (⟨muddled strayBlocks, .empty⟩ : View).decode =
      .ok ⟨Kind.graph, (muddled strayBlocks).describedBlock .empty⟩ := by
    rw [decode_of_regions (show (muddled strayBlocks).regions = [_] from rfl)]
    rfl
  have hregion := decode_ignores_hidden_blocks.2 _ _ hdecode [(0, 0)] _ 0 _ rfl rfl rfl
  refine ⟨alike_muddled _ _, fun h => ?_, ?_, _, _, _, hdecode, rfl, rfl, rfl, ?_⟩
  · cases congrArg Node.blocks h
  · exact decode_ignores_hidden_blocks.1 _ _ (alike_muddled _ _) .empty
  · rw [hregion]
    rfl

end View

end OpGraph
