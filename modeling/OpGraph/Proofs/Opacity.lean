import OpGraph.Proofs.Defects
import OpGraph.Proofs.Erasure
import OpGraph.Proofs.Renaming

/-!
# Identities are opaque

A dump with all its identities renamed, by any injective renaming, fails its check with the renamed
defect or becomes the renamed graph.  That graph is decoded to the renamed result or refused with
the renamed fault, so nothing depends on how identities compare beyond being equal.
-/

namespace OpGraph

namespace Dump

/-! ## Renamed dumps -/

def Entry.rename (f : ValueId → ValueId) (e : Entry) : Entry := { e with id := f e.id }

mutual

def Node.rename (f : ValueId → ValueId) : Node → Node
  | ⟨kind, schema, inputs, outputs, blocks⟩ =>
      ⟨kind, schema, inputs.map f, outputs.map f, renameBlocks f blocks⟩

def renameBlocks (f : ValueId → ValueId) : List Block → List Block
  | [] => []
  | b :: rest => b.rename f :: renameBlocks f rest

def Block.rename (f : ValueId → ValueId) : Block → Block
  | ⟨inputs, outputs, nodes⟩ => ⟨inputs.map f, outputs.map f, renameNodes f nodes⟩

def renameNodes (f : ValueId → ValueId) : List Node → List Node
  | [] => []
  | n :: rest => n.rename f :: renameNodes f rest

end

end Dump

def Dump.rename (f : ValueId → ValueId) (d : Dump) : Dump where
  values := d.values.map (Dump.Entry.rename f)
  inputs := d.inputs.map f
  outputs := d.outputs.map f
  nodes := Dump.renameNodes f d.nodes

namespace Dump

def Defect.rename (f : ValueId → ValueId) : Defect → Defect
  | .duplicateValue id => .duplicateValue (f id)
  | .unknownValue owner id => .unknownValue owner (f id)

def Reference.rename (f : ValueId → ValueId) (r : Reference) : Reference := { r with id := f r.id }

variable {f : ValueId → ValueId}

/-! ## The check -/

theorem defined_rename (d : Dump) : (d.rename f).defined = d.defined.map f := by
  simp only [defined, rename, List.map_map]
  rfl

theorem map_reference_rename (owner : String) (ids : List ValueId) :
    (ids.map f).map (Reference.mk owner) =
      (ids.map (Reference.mk owner)).map (Reference.rename f) := by
  simp only [List.map_map]
  rfl

mutual

theorem Node.references_rename :
    (n : Node) → (n.rename f).references = n.references.map (Reference.rename f)
  | ⟨kind, schema, inputs, outputs, blocks⟩ => by
      simp only [Node.rename, Node.references, map_reference_rename, List.map_append,
        referencesInBlocks_rename blocks]

theorem referencesInBlocks_rename :
    (bs : List Block) →
      referencesInBlocks (renameBlocks f bs) = (referencesInBlocks bs).map (Reference.rename f)
  | [] => rfl
  | b :: rest => by
      simp only [renameBlocks, referencesInBlocks, List.map_append, b.references_rename,
        referencesInBlocks_rename rest]

theorem Block.references_rename :
    (b : Block) → (b.rename f).references = b.references.map (Reference.rename f)
  | ⟨inputs, outputs, nodes⟩ => by
      simp only [Block.rename, Block.references, map_reference_rename, List.map_append,
        referencesInNodes_rename nodes]

theorem referencesInNodes_rename :
    (ns : List Node) →
      referencesInNodes (renameNodes f ns) = (referencesInNodes ns).map (Reference.rename f)
  | [] => rfl
  | n :: rest => by
      simp only [renameNodes, referencesInNodes, List.map_append, n.references_rename,
        referencesInNodes_rename rest]

end

theorem references_rename (d : Dump) :
    (d.rename f).references = d.references.map (Reference.rename f) := by
  simp only [references, rename, map_reference_rename, List.map_append,
    referencesInNodes_rename d.nodes]

theorem mem_defined_rename (hf : Function.Injective f) {d : Dump} {id : ValueId} :
    f id ∈ (d.rename f).defined ↔ id ∈ d.defined := by
  rw [defined_rename]
  exact List.mem_map_of_injective hf

/-- What passes its check does so under its new names. -/
theorem exists_check_rename_eq_ok (hf : Function.Injective f) {d : Dump}
    (h : ∃ index, d.check = .ok index) : ∃ index, (d.rename f).check = .ok index := by
  rw [exists_check_eq_ok_iff] at h ⊢
  obtain ⟨hnodup, hdefined⟩ := h
  constructor
  · rw [defined_rename]
    exact hnodup.map hf
  · rw [references_rename]
    intro _ hmap
    obtain ⟨s, hs, rfl⟩ := List.mem_map.mp hmap
    exact (mem_defined_rename hf).mpr (hdefined s hs)

/-- The check meets the same defect first. -/
theorem check_rename_eq_error (hf : Function.Injective f) {d : Dump} {e : Defect}
    (h : d.check = .error e) : (d.rename f).check = .error (e.rename f) := by
  rw [check_eq_error_iff] at h ⊢
  rcases h with ⟨before, id, after, hids, hbefore, hid, rfl⟩ |
    ⟨hnodup, before, r, after, hrefs, hbefore, hr, rfl⟩
  · refine .inl ⟨before.map f, f id, after.map f, ?_, hbefore.map hf, List.mem_map_of_mem hid, rfl⟩
    rw [defined_rename, hids, List.map_append, List.map_cons]
  · refine .inr ⟨?_, before.map (Reference.rename f), r.rename f, after.map (Reference.rename f),
      ?_, ?_, ?_, rfl⟩
    · rw [defined_rename]
      exact hnodup.map hf
    · rw [references_rename, hrefs, List.map_append, List.map_cons]
    · intro _ hmap
      obtain ⟨s, hs, rfl⟩ := List.mem_map.mp hmap
      exact (mem_defined_rename hf).mpr (hbefore s hs)
    · exact fun h => hr ((mem_defined_rename hf).mp h)

/-! ## Resolving -/

theorem entry?_rename (hf : Function.Injective f) (d : Dump) (id : ValueId) :
    entry? (d.rename f) (f id) = Entry.rename f <$> d.entry? id := by
  simp only [rename, entry?, List.find?_map, Function.comp_def, Entry.rename, hf.eq_iff,
    Option.map_eq_map]

theorem value_rename (hf : Function.Injective f) (d : Dump) (id : ValueId) :
    (d.rename f).value (f id) = (d.value id).rename f := by
  rw [value, value, entry?_rename hf]
  cases d.entry? id <;> rfl

section Resolve

variable {lookup lookup' : ValueId → Value}

theorem map_lookup_rename (h : ∀ id, lookup' (f id) = (lookup id).rename f)
    (ids : List ValueId) :
    (ids.map f).map lookup' = (ids.map lookup).map (Value.rename f) := by
  rw [List.map_map, List.map_map]
  exact List.map_congr_left fun id _ => h id

mutual

theorem Node.resolve_rename (h : ∀ id, lookup' (f id) = (lookup id).rename f) :
    (n : Node) → (n.rename f).resolve lookup' = (n.resolve lookup).rename f
  | ⟨kind, schema, inputs, outputs, blocks⟩ => by
      simp only [Node.rename, Node.resolve, OpGraph.Node.rename, map_lookup_rename h,
        resolveBlocks_rename h blocks]

theorem resolveBlocks_rename (h : ∀ id, lookup' (f id) = (lookup id).rename f) :
    (bs : List Block) →
      resolveBlocks lookup' (renameBlocks f bs) = OpGraph.renameNodes f (resolveBlocks lookup bs)
  | [] => rfl
  | b :: rest => congrArg₂ List.cons (b.resolve_rename h) (resolveBlocks_rename h rest)

theorem Block.resolve_rename (h : ∀ id, lookup' (f id) = (lookup id).rename f) :
    (b : Block) → (b.rename f).resolve lookup' = (b.resolve lookup).rename f
  | ⟨inputs, outputs, nodes⟩ => by
      simp only [Block.rename, Block.resolve, OpGraph.Node.rename, map_lookup_rename h,
        resolveNodes_rename h nodes, OpGraph.renameNodes]

theorem resolveNodes_rename (h : ∀ id, lookup' (f id) = (lookup id).rename f) :
    (ns : List Node) →
      resolveNodes lookup' (renameNodes f ns) = OpGraph.renameNodes f (resolveNodes lookup ns)
  | [] => rfl
  | n :: rest => congrArg₂ List.cons (n.resolve_rename h) (resolveNodes_rename h rest)

end

end Resolve

theorem root_rename (hf : Function.Injective f) (d : Dump) :
    (d.rename f).root = d.root.rename f := by
  have hvalue := value_rename hf d
  have hnodes := resolveNodes_rename hvalue d.nodes
  have hmap := map_lookup_rename hvalue
  simp only [root, resolve, OpGraph.Node.rename, OpGraph.renameNodes]
  rw [← hnodes, ← hmap, ← hmap]
  rfl

end Dump

namespace Graph

variable {f : ValueId → ValueId}

/-- Under an injective renaming a dump fails its check with the renamed defect, or it becomes the
renamed graph, which is decoded to the renamed result or refused with the renamed fault at the same
place. -/
theorem decode_of_rename (hf : Function.Injective f) (d : Dump) :
    (∀ e, ofDump d = .error e → ofDump (d.rename f) = .error (e.rename f)) ∧
    ∀ g, ofDump d = .ok g → ∃ g', ofDump (d.rename f) = .ok g' ∧ g'.dump = g.dump.rename f ∧
      ∀ names,
        (∀ decoded, (⟨g.root, names⟩ : View).decode = .ok decoded →
          (⟨g'.root, names⟩ : View).decode = .ok (decoded.rename f)) ∧
        ∀ e, (⟨g.root, names⟩ : View).decode = .error e →
          (⟨g'.root, names⟩ : View).decode = .error (e.rename f) ∧ (e.rename f).path = e.path := by
  refine ⟨fun e he => ?_, fun g hg => ?_⟩
  · rw [ofDump_eq_error_iff] at he ⊢
    exact Dump.check_rename_eq_error hf he
  · obtain rfl := dump_of_ofDump_eq_ok hg
    obtain ⟨g', hg'⟩ :=
      exists_ofDump_eq_ok_iff.mpr (Dump.exists_check_rename_eq_ok hf ⟨_, g.checked⟩)
    have hdump := dump_of_ofDump_eq_ok hg'
    have hroot : g'.root = g.root.rename f := by
      rw [root_of_ofDump_eq_ok hg', Dump.root_rename hf, g.root_eq]
    refine ⟨g', hg', hdump, fun names => ⟨fun decoded h => ?_, fun e h => ⟨?_, e.path_rename f⟩⟩⟩
    · rw [hroot, View.decode_rename hf, h]
      rfl
    · rw [hroot, View.decode_rename hf, h]
      rfl

/-- Turns the order of the first eight identities around. -/
def flipped (id : ValueId) : ValueId := ⟨id.number ^^^ 7⟩

theorem flipped_injective : Function.Injective flipped :=
  Function.Involutive.injective fun id => by
    rw [flipped, flipped, UInt64.xor_assoc, UInt64.xor_self, UInt64.xor_zero]

/-- Two nodes that use `%2` and `%1` from outside, the second of which puts out whatever. -/
def capturing (id : ValueId) : Dump where
  values := [1, 2, 3, 4].map fun n => ⟨⟨n⟩, .unknownTensor, none⟩
  nodes :=
    [{ kind := "aten::relu", inputs := [⟨2⟩], outputs := [⟨3⟩] },
      { kind := "aten::add", inputs := [⟨1⟩, ⟨2⟩, ⟨3⟩], outputs := [id] }]

theorem decode_of_rename_capturing :
    (∃ g g' decoded, ofDump (capturing ⟨4⟩) = .ok g ∧
      ofDump ((capturing ⟨4⟩).rename flipped) = .ok g' ∧
      (⟨g.root, .empty⟩ : View).decode = .ok decoded ∧
      (⟨g'.root, .empty⟩ : View).decode = .ok (decoded.rename flipped) ∧
      decoded.body.captures = [⟨2⟩, ⟨1⟩] ∧
      (decoded.rename flipped).body.captures = [⟨5⟩, ⟨6⟩]) ∧
    (∃ g g' e, ofDump (capturing ⟨3⟩) = .ok g ∧
      ofDump ((capturing ⟨3⟩).rename flipped) = .ok g' ∧
      (⟨g.root, .empty⟩ : View).decode = .error e ∧
      (⟨g'.root, .empty⟩ : View).decode = .error (e.rename flipped) ∧
      e.rename flipped = .inRegion Kind.graph 0 1 (.duplicateProducer "aten::add" ⟨4⟩)) ∧
    ofDump (capturing ⟨6⟩) = .error (.unknownValue "aten::add" ⟨6⟩) ∧
    ofDump ((capturing ⟨6⟩).rename flipped) = .error (.unknownValue "aten::add" ⟨1⟩) := by
  have hregions (id : ValueId) : (capturing id).root.regions = [(capturing id).root] := rfl
  have hkept : (⟨(capturing ⟨4⟩).root, .empty⟩ : View).decode =
      .ok ⟨Kind.graph, (capturing ⟨4⟩).root.describedBlock .empty⟩ := by
    rw [View.decode_of_regions (hregions _)]
    rfl
  have hclash : (⟨(capturing ⟨3⟩).root, .empty⟩ : View).decode =
      .error (.inRegion Kind.graph 0 1 (.duplicateProducer "aten::add" ⟨3⟩)) := by
    rw [View.decode_of_regions (hregions _)]
    rfl
  have hfour : ofDump (capturing ⟨4⟩) = .ok ⟨capturing ⟨4⟩, _, rfl⟩ := rfl
  have hthree : ofDump (capturing ⟨3⟩) = .ok ⟨capturing ⟨3⟩, _, rfl⟩ := rfl
  rw [← root_of_ofDump_eq_ok hfour] at hkept
  rw [← root_of_ofDump_eq_ok hthree] at hclash
  obtain ⟨g, hg, _, hrenamed⟩ :=
    (decode_of_rename flipped_injective (capturing ⟨4⟩)).2 _ hfour
  obtain ⟨g', hg', _, hrenamed'⟩ :=
    (decode_of_rename flipped_injective (capturing ⟨3⟩)).2 _ hthree
  refine ⟨⟨_, g, _, hfour, hg, hkept, (hrenamed .empty).1 _ hkept, rfl, rfl⟩,
    ⟨_, g', _, hthree, hg', hclash, ((hrenamed' .empty).2 _ hclash).1, rfl⟩, rfl, ?_⟩
  exact (decode_of_rename flipped_injective (capturing ⟨6⟩)).1 _ rfl

end Graph

end OpGraph
