import OpGraph.Proofs.Indexing
import OpGraph.Proofs.Scoping

/-!
# Regions decode on their own

A region inside a decoded graph is what decoding its block alone gives: nothing around a region
has a part in what it is decoded to.
-/

namespace OpGraph

open View.Visit

/-! ## Addresses -/

namespace Decoded

/-- The region at an address. -/
def Region.at? (r : Region) : Address → Option Region
  | [] => some r
  | (p, k) :: a => (r.nodes[p]?).bind fun n => (n.regions[k]?).bind fun s => s.at? a

end Decoded

namespace View

/-- The children that a visitor is handed in a region. -/
def visited (v : View) (index : Nat) : Except Fault (List View) :=
  (outcome (v.visit index fun c => modify fun cs => cs ++ [c]) []).map Prod.snd

/-- The owner of the region at an address, with the index of the region there.  The way starts at
a region of this view and goes through visited children. -/
def owner? (v : View) (index : Nat) : Decoded.Address → Option (View × Nat)
  | [] => some (v, index)
  | (p, k) :: a =>
      match v.visited index with
      | .ok cs => (cs[p]?).bind fun c => c.owner? k a
      | .error _ => none

theorem outcome_visitFrom_collect (kind : String) (index position : Nat) (cs seen : List View) :
    outcome (visitFrom kind index cs (fun c _ => modify fun ds => ds ++ [c]) position) seen =
      .ok (⟨⟩, seen ++ cs) := by
  induction cs generalizing position seen with
  | nil => rw [List.append_nil]; rfl
  | cons c cs ih =>
      rw [visitFrom, outcome_bind, outcome_adapt, outcome_modify]
      exact (ih (position + 1) (seen ++ [c])).trans (by rw [List.append_assoc]; rfl)

theorem visited_eq {v block : View} {index : Nat} (h : v.region index = .ok block) :
    v.visited index = .ok (block.node.contents.map fun n => ⟨n, v.names⟩) := by
  rw [visited, visit, visitChildren_eq (children_eq h), outcome_visitFrom_collect]
  rfl

end View

/-! ## Blocks with bodies -/

/-- Every block behind a region has a body, at any depth. -/
inductive Node.Bodied : Node → Prop
  | intro {n : Node} (body : ∀ b ∈ n.regions, b.body.isSome)
      (inner : ∀ b ∈ n.regions, ∀ c ∈ b.contents, Bodied c) : Bodied n

namespace Dump

variable (lookup : ValueId → Value)

mutual

theorem Node.bodied_resolve : (n : Node) → (n.resolve lookup).Bodied
  | ⟨_, _, _, _, blocks⟩ =>
      .intro (fun b hb => (bodied_resolveBlocks blocks b hb).1)
        fun b hb => (bodied_resolveBlocks blocks b hb).2

theorem bodied_resolveBlocks :
    (bs : List Block) → ∀ b ∈ resolveBlocks lookup bs, b.body.isSome ∧ ∀ c ∈ b.contents, c.Bodied
  | [], _, hb => absurd hb List.not_mem_nil
  | ⟨_, _, nodes⟩ :: rest, b, hb => by
      rcases List.mem_cons.mp hb with rfl | hb
      · exact ⟨rfl, bodied_resolveNodes nodes⟩
      · exact bodied_resolveBlocks rest b hb

theorem bodied_resolveNodes : (ns : List Node) → ∀ c ∈ resolveNodes lookup ns, c.Bodied
  | [], _, hc => absurd hc List.not_mem_nil
  | n :: rest, c, hc => by
      rcases List.mem_cons.mp hc with rfl | hc
      · exact n.bodied_resolve
      · exact bodied_resolveNodes rest c hc

end

theorem bodied_root (d : Dump) : d.root.Bodied := by
  have hregions (b : OpGraph.Node) (hb : b ∈ d.root.regions) : b = d.root := by
    simpa [root, resolve, OpGraph.Node.regions] using hb
  refine .intro (fun b hb => ?_) fun b hb => ?_
  · rw [hregions b hb]
    rfl
  · rw [hregions b hb]
    exact bodied_resolveNodes d.value d.nodes

end Dump

/-! ## Decoding a region alone -/

namespace View

theorem decode_block {b : Node} {names : TypeNames} (hbody : b.body.isSome)
    (hb : (b.describedBlock names).bindings.Nodup) :
    (⟨b, names⟩ : View).decode = .ok ⟨b.kind, b.describedBlock names⟩ := by
  have hregions : b.regions = [b] := by
    obtain ⟨contents, hcontents⟩ := Option.isSome_iff_exists.mp hbody
    rw [Node.regions, hcontents]
  have hregion : (⟨b, names⟩ : View).region 0 = .ok ⟨b, names⟩ := by
    rw [region_eq, hregions]
    rfl
  have hrecord : ∃ t, recordAll ((⟨b, names⟩ : View).productions 0) [] = .ok t := by
    rw [exists_recordAll_nil_eq_ok_iff, productions, hregion, b.map_value_blockProductions names]
    exact hb
  obtain ⟨t, ht⟩ := hrecord
  rw [decode_of_regions hregions, ht]
  rfl

theorem exists_owner_of_at {v : View} {index : Nat} {b : Node} {r : Decoded.Region}
    (a : Decoded.Address) (hv : v.node.Bodied) (hb : v.node.regions[index]? = some b)
    (hnodup : (b.describedBlock v.names).bindings.Nodup)
    (hr : (b.describedBlock v.names).at? a = some r) :
    ∃ o j block, v.owner? index a = some (o, j) ∧ o.region j = .ok block ∧
      block.decode = .ok ⟨block.kind, r⟩ := by
  induction a generalizing v index b with
  | nil =>
      obtain ⟨hbody, _⟩ := hv
      have hregion : v.region index = .ok ⟨b, v.names⟩ := by rw [region_eq, hb]
      obtain rfl : b.describedBlock v.names = r := Option.some.inj hr
      have hb := decode_block (hbody b (List.mem_of_getElem? hb)) hnodup
      exact ⟨v, index, ⟨b, v.names⟩, rfl, hregion, hb⟩
  | cons step a ih =>
      obtain ⟨p, k⟩ := step
      obtain ⟨_, hinner⟩ := hv
      have hregion : v.region index = .ok ⟨b, v.names⟩ := by rw [region_eq, hb]
      obtain ⟨d, hd, hr⟩ := Option.bind_eq_some_iff.mp hr
      obtain ⟨s, hs, hr⟩ := Option.bind_eq_some_iff.mp hr
      -- The way goes on in the block of another view, whose own bindings are distinct again.
      have hnode := Decoded.Region.nodup_node hnodup hd
      rw [Node.describedBlock_eq] at hd
      obtain ⟨n, hn, rfl⟩ := Option.map_eq_some_iff.mp (List.getElem?_map.symm.trans hd)
      have hinside := Decoded.Node.nodup_region hnode hs
      rw [Node.described_regions] at hs
      obtain ⟨c, hc, rfl⟩ := Option.map_eq_some_iff.mp (List.getElem?_map.symm.trans hs)
      obtain ⟨o, j, block, howner, hblock⟩ := ih (v := ⟨n, v.names⟩)
        (hinner b (List.mem_of_getElem? hb) n (List.mem_of_getElem? hn)) hc hinside hr
      refine ⟨o, j, block, ?_, hblock⟩
      rw [owner?, visited_eq hregion]
      simpa [hn] using howner

/-- Every stored graph has bodies in all its blocks.  In a decoded graph that has, each region is
what decoding it alone, from its owner, gives. -/
theorem decode_region_of_decode :
    (∀ g : Graph, g.root.Bodied) ∧
      ∀ (v : View) (g : Decoded.Graph), v.node.Bodied → v.decode = .ok g →
        ∀ (a : Decoded.Address) (r : Decoded.Region), g.body.at? a = some r →
          ∃ o j block, v.owner? 0 a = some (o, j) ∧ o.region j = .ok block ∧
            block.decode = .ok ⟨block.kind, r⟩ := by
  refine ⟨fun g => g.root_eq ▸ g.dump.bodied_root, fun v g hv hg a r hr => ?_⟩
  obtain ⟨b, hb, rfl, hnodup⟩ := exists_region_of_decode_eq_ok hg
  have hregion : v.region 0 = .ok ⟨b, v.names⟩ := by rw [region_eq, hb]; rfl
  have hbindings : (b.describedBlock v.names).bindings.Nodup := by
    rwa [productions, hregion, b.map_value_blockProductions v.names] at hnodup
  exact exists_owner_of_at a hv (by rw [hb]; rfl) hbindings hr

/-- A loop around a branch, one side of which uses a parameter of the loop and one of the graph. -/
def nesting : Dump :=
  let relu : Dump.Node := { kind := "aten::relu", inputs := [⟨0⟩, ⟨1⟩], outputs := [⟨2⟩] }
  let branch : Dump.Node :=
    { kind := "prim::If", inputs := [⟨1⟩], outputs := [⟨3⟩],
      blocks := [{ outputs := [⟨2⟩], nodes := [relu] }, { outputs := [⟨0⟩] }] }
  let loop : Dump.Node :=
    { kind := "prim::Loop", inputs := [⟨0⟩], outputs := [⟨4⟩],
      blocks := [{ inputs := [⟨1⟩], outputs := [⟨3⟩], nodes := [branch] }] }
  { values := [0, 1, 2, 3, 4].map fun n => ⟨⟨n⟩, .unknownTensor, none⟩
    inputs := [⟨0⟩], outputs := [⟨4⟩], nodes := [loop] }

theorem decode_region_nesting :
    ∃ g r o j block, (⟨nesting.root, .empty⟩ : View).decode = .ok g ∧
      g.body.at? [(0, 0), (0, 0)] = some r ∧ r.captures = [⟨0⟩, ⟨1⟩] ∧
      (⟨nesting.root, .empty⟩ : View).owner? 0 [(0, 0), (0, 0)] = some (o, j) ∧
      o.region j = .ok block ∧ block.decode = .ok ⟨block.kind, r⟩ := by
  have h : (⟨nesting.root, .empty⟩ : View).decode =
      .ok ⟨Kind.graph, nesting.root.describedBlock .empty⟩ := by
    rw [decode_of_regions (show nesting.root.regions = [nesting.root] from rfl)]
    rfl
  have hbodied : nesting.root.Bodied := by
    rw [← Graph.root_eq ⟨nesting, _, rfl⟩]
    exact decode_region_of_decode.1 _
  obtain ⟨o, j, block, hblock⟩ :=
    decode_region_of_decode.2 ⟨nesting.root, .empty⟩ _ hbodied h [(0, 0), (0, 0)] _ rfl
  exact ⟨_, _, o, j, block, h, rfl, rfl, hblock⟩

end View

end OpGraph
