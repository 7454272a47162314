import OpGraph.Proofs.KnownTypes
import OpGraph.Proofs.ValueTable

/-!
# Values are described by the table

Wherever a value stands in a decoded graph, as an input or an output of a node or of a region, its
description is the one that its only entry in the value table calls for.  Two descriptions of one
value are therefore equal.
-/

namespace OpGraph

/-! ## What an entry tells -/

namespace Dump

/-- What is to be said of a value, by its entry in the table. -/
structure Entry.Describes (names : TypeNames) (e : Entry) (v : Decoded.Value) : Prop where
  id : v.id = e.id
  ranked : ∀ sizes, e.type.Complete sizes → v.shape = .static sizes
  unranked : (∀ sizes, ¬e.type.Complete sizes) → v.shape = .dynamic
  named : ∀ name, e.type.ElementNamed name → v.element = names.lookup name
  unnamed : (∀ name, ¬e.type.ElementNamed name) → v.element = .dynamic
  absent : v.absent = true ↔ e.type = .absent

theorem Entry.describes_value (names : TypeNames) (e : Entry) :
    e.Describes names (.of names e.value) where
  id := rfl
  ranked _ h := Value.shape_eq_static h
  unranked h := Value.shape_eq_dynamic h
  named _ h := Value.element_eq_lookup names h
  unnamed h := Value.element_eq_dynamic names h
  absent := by simp [Decoded.Value.of, Entry.value]

theorem Entry.Describes.shape_static {names : TypeNames} {e : Entry} {v : Decoded.Value}
    (h : e.Describes names v) : v.shape = .dynamic ∨ ∃ sizes, v.shape = .static sizes := by
  by_cases hsizes : ∃ sizes, e.type.Complete sizes
  · obtain ⟨sizes, hsizes⟩ := hsizes
    exact .inr ⟨sizes, h.ranked sizes hsizes⟩
  · exact .inl (h.unranked (not_exists.mp hsizes))

/-- An entry leaves nothing open. -/
theorem Entry.Describes.unique {names : TypeNames} {e : Entry} {v w : Decoded.Value}
    (hv : e.Describes names v) (hw : e.Describes names w) : v = w := by
  have hid : v.id = w.id := hv.id.trans hw.id.symm
  have hshape : v.shape = w.shape := by
    by_cases hsizes : ∃ sizes, e.type.Complete sizes
    · obtain ⟨sizes, hsizes⟩ := hsizes
      rw [hv.ranked sizes hsizes, hw.ranked sizes hsizes]
    · rw [hv.unranked (not_exists.mp hsizes), hw.unranked (not_exists.mp hsizes)]
  have helement : v.element = w.element := by
    by_cases hname : ∃ name, e.type.ElementNamed name
    · obtain ⟨name, hname⟩ := hname
      rw [hv.named name hname, hw.named name hname]
    · rw [hv.unnamed (not_exists.mp hname), hw.unnamed (not_exists.mp hname)]
  have habsent : v.absent = w.absent := by
    rw [Bool.eq_iff_iff, hv.absent, hw.absent]
  cases v
  cases w
  rw [Decoded.Value.mk.injEq]
  exact ⟨hid, hshape, helement, habsent⟩

theorem filter_id_eq_singleton {es : List Entry} (h : (es.map Entry.id).Nodup) {e : Entry}
    (he : e ∈ es) : es.filter (fun e' => e'.id = e.id) = [e] := by
  induction es with
  | nil => cases he
  | cons a es ih =>
      obtain ⟨ha, hes⟩ := List.nodup_cons.mp h
      rcases List.mem_cons.mp he with rfl | he
      · rw [List.filter_cons_of_pos (by simp), List.filter_eq_nil_iff.mpr]
        intro e' he' hid
        exact ha (List.mem_map.mpr ⟨e', he', by simpa using hid⟩)
      · have hne : a.id ≠ e.id := fun hid => ha (hid ▸ List.mem_map_of_mem he)
        rw [List.filter_cons_of_neg (by simpa using hne), ih hes he]

end Dump

/-! ## Where values stand -/

namespace Decoded

mutual

/-- All values of a node, those of its regions included. -/
def Node.values : Node → List Value
  | ⟨_, _, inputs, outputs, _, regions⟩ => inputs ++ (outputs ++ valuesInRegions regions)

def valuesInRegions : List Region → List Value
  | [] => []
  | r :: rest => r.values ++ valuesInRegions rest

/-- All values of a region, at any depth. -/
def Region.values : Region → List Value
  | ⟨inputs, outputs, _, nodes⟩ => inputs ++ (outputs ++ valuesInNodes nodes)

def valuesInNodes : List Node → List Value
  | [] => []
  | n :: rest => n.values ++ valuesInNodes rest

end

end Decoded

namespace Dump

section Values

variable (lookup : ValueId → Value) (names : TypeNames)

mutual

/-- The values of a node are what it refers to, each looked up and described. -/
theorem Node.values_described_resolve :
    (n : Node) → ((n.resolve lookup).described names).values =
      n.references.map fun r => .of names (lookup r.id)
  | ⟨kind, schema, inputs, outputs, blocks⟩ => by
      simp only [Node.resolve, OpGraph.Node.described, Decoded.Node.values, Node.references,
        valuesInRegions_resolveBlocks blocks, List.map_append, List.map_map, Function.comp_def]

theorem valuesInRegions_resolveBlocks :
    (bs : List Block) →
      Decoded.valuesInRegions (describedBlocks names (resolveBlocks lookup bs)) =
        (referencesInBlocks bs).map fun r => .of names (lookup r.id)
  | [] => rfl
  | b :: rest => by
      simp only [resolveBlocks, describedBlocks, Decoded.valuesInRegions, referencesInBlocks,
        b.values_describedBlock_resolve, valuesInRegions_resolveBlocks rest, List.map_append]

theorem Block.values_describedBlock_resolve :
    (b : Block) → ((b.resolve lookup).describedBlock names).values =
      b.references.map fun r => .of names (lookup r.id)
  | ⟨inputs, outputs, nodes⟩ => by
      simp only [Block.resolve, OpGraph.Node.describedBlock, Decoded.Region.of,
        Decoded.Region.values, Block.references, valuesInNodes_resolveNodes nodes,
        List.map_append, List.map_map, Function.comp_def]

theorem valuesInNodes_resolveNodes :
    (ns : List Node) →
      Decoded.valuesInNodes (describedContents names (resolveNodes lookup ns)) =
        (referencesInNodes ns).map fun r => .of names (lookup r.id)
  | [] => rfl
  | n :: rest => by
      simp only [resolveNodes, describedContents, Decoded.valuesInNodes, referencesInNodes,
        n.values_described_resolve, valuesInNodes_resolveNodes rest, List.map_append]

end

end Values

theorem values_describedBlock_root (d : Dump) (names : TypeNames) :
    (d.root.describedBlock names).values =
      d.references.map fun r => .of names (d.value r.id) := by
  have hnodes := valuesInNodes_resolveNodes d.value names d.nodes
  simp only [root, resolve, OpGraph.Node.describedBlock, Decoded.Region.of, Decoded.Region.values,
    references, hnodes, List.map_append, List.map_map, Function.comp_def]

theorem exists_entry_of_mem_values {d : Dump} (hd : ∃ index, d.check = .ok index) {names : TypeNames}
    {v : Decoded.Value} (hv : v ∈ (d.root.describedBlock names).values) :
    ∃ e ∈ d.values, e.id = v.id ∧ e.Describes names v := by
  obtain ⟨hnodup, hdefined⟩ := exists_check_eq_ok_iff.mp hd
  rw [values_describedBlock_root] at hv
  obtain ⟨r, hr, rfl⟩ := List.mem_map.mp hv
  obtain ⟨e, he, hid⟩ := List.mem_map.mp (hdefined r hr)
  rw [← hid, value_eq_of_mem hnodup he]
  exact ⟨e, he, rfl, e.describes_value names⟩

end Dump

namespace Graph

/-- Every value of a decoded graph has exactly one entry in the table, which is found and which it
is described by.  So a value is described alike wherever it stands, and its shape is known in full
or not at all. -/
theorem describes_of_mem_values {d : Dump} {g : Graph} (hg : ofDump d = .ok g)
    {names : TypeNames} {decoded : Decoded.Graph}
    (h : (⟨g.root, names⟩ : View).decode = .ok decoded) :
    (∀ v ∈ decoded.body.values, ∃ e, d.values.filter (fun e' => e'.id = v.id) = [e] ∧
      g.entry? v.id = some e ∧ e.Describes names v) ∧
    (∀ v ∈ decoded.body.values, ∀ w ∈ decoded.body.values, v.id = w.id → v = w) ∧
    ∀ v ∈ decoded.body.values, v.shape = .dynamic ∨ ∃ sizes, v.shape = .static sizes := by
  obtain rfl := dump_of_ofDump_eq_ok hg
  rw [root_eq] at h
  obtain ⟨block, hblock, rfl, _⟩ := View.exists_region_of_decode_eq_ok h
  obtain rfl : g.dump.root = block := List.singleton_inj.mp hblock
  obtain ⟨hnodup, _⟩ := Dump.exists_check_eq_ok_iff.mp ⟨_, g.checked⟩
  have hentry {v : Decoded.Value} (hv : v ∈ (g.dump.root.describedBlock names).values) :
      ∃ e ∈ g.dump.values, e.id = v.id ∧ e.Describes names v :=
    Dump.exists_entry_of_mem_values ⟨_, g.checked⟩ hv
  refine ⟨fun v hv => ?_, fun v hv w hw hid => ?_, fun v hv => ?_⟩
  · obtain ⟨e, he, hid, hdescribes⟩ := hentry hv
    refine ⟨e, ?_, ?_, hdescribes⟩
    · rw [← hid]
      exact Dump.filter_id_eq_singleton hnodup he
    · rw [g.entry?_eq, Dump.entry?_eq_some_iff hnodup]
      exact ⟨he, hid⟩
  · obtain ⟨e, he, hve, hv⟩ := hentry hv
    obtain ⟨e', he', hwe, hw⟩ := hentry hw
    obtain rfl : e = e' := List.inj_on_of_nodup_map hnodup he he' (hve.trans (hid.trans hwe.symm))
    exact hv.unique hw
  · obtain ⟨e, _, _, hdescribes⟩ := hentry hv
    exact hdescribes.shape_static

/-- A loop around a node, with a value of every sort: a complete tensor, one with a dimension that
is not known, a scalar, the absent value, and a tensor without an element type. -/
def assorted : Dump :=
  let index : Dump.Node := { kind := "aten::index", inputs := [⟨0⟩, ⟨3⟩], outputs := [⟨4⟩] }
  { values :=
      [⟨⟨3⟩, .absent, none⟩, ⟨⟨1⟩, .tensor (some "float") (some [some 2, none]), none⟩,
        ⟨⟨4⟩, .tensor none (some [some 2]), none⟩, ⟨⟨2⟩, .scalar "int", none⟩,
        ⟨⟨0⟩, .tensor (some "float") (some [some 2, some 3]), none⟩]
    inputs := [⟨0⟩], outputs := [⟨1⟩]
    nodes :=
      [{ kind := "prim::Loop", inputs := [⟨0⟩], outputs := [⟨1⟩],
         blocks := [{ inputs := [⟨2⟩], outputs := [⟨4⟩], nodes := [index] }] }] }

theorem describes_of_mem_values_assorted :
    ∃ g decoded, ofDump assorted = .ok g ∧ (⟨g.root, .standard⟩ : View).decode = .ok decoded ∧
      (∀ v ∈ decoded.body.values, ∃ e, assorted.values.filter (fun e' => e'.id = v.id) = [e] ∧
        g.entry? v.id = some e ∧ e.Describes .standard v) ∧
      (∀ v ∈ decoded.body.values, ∀ w ∈ decoded.body.values, v.id = w.id → v = w) ∧
      (∀ v ∈ decoded.body.values, v.shape = .dynamic ∨ ∃ sizes, v.shape = .static sizes) ∧
      decoded.body.values.eraseDups =
        [⟨⟨0⟩, .static [2, 3], .f32, false⟩, ⟨⟨1⟩, .dynamic, .f32, false⟩,
          ⟨⟨2⟩, .dynamic, .i32, false⟩, ⟨⟨4⟩, .dynamic, .dynamic, false⟩,
          ⟨⟨3⟩, .dynamic, .dynamic, true⟩] := by
  have hg : ofDump assorted = .ok ⟨assorted, _, rfl⟩ := rfl
  have h : (⟨assorted.root, .standard⟩ : View).decode =
      .ok ⟨Kind.graph, assorted.root.describedBlock .standard⟩ := by
    rw [View.decode_of_regions (show assorted.root.regions = [assorted.root] from rfl)]
    rfl
  rw [← root_of_ofDump_eq_ok hg] at h
  obtain ⟨hentry, hsame, hshape⟩ := describes_of_mem_values hg h
  exact ⟨_, _, hg, h, hentry, hsame, hshape, by decide⟩

end Graph

end OpGraph
