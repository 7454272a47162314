import Mathlib.Data.List.Nodup
import OpGraph.Proofs.Defects
import OpGraph.Proofs.Erasure

/-!
# The value table is a finite map

All that a graph takes from its value table is what the table says of the values that the graph
refers to.  The order of the entries has no part in it, nor has an entry that nothing refers to.
-/

namespace OpGraph

namespace Dump

/-! ## Looking up -/

/-- A value as its entry describes it. -/
def Entry.value (e : Entry) : Value :=
  ⟨e.id, e.type, e.literal.getD .unsupported, e.type = .absent⟩

/-- Where no identity repeats, the entry that is found is the only one of its identity. -/
theorem entry?_eq_some_iff {d : Dump} (h : d.defined.Nodup) {id : ValueId} {e : Entry} :
    d.entry? id = some e ↔ e ∈ d.values ∧ e.id = id := by
  constructor
  · intro he
    exact ⟨List.mem_of_find?_eq_some he, by simpa using List.find?_some he⟩
  · rintro ⟨he, rfl⟩
    obtain ⟨e', he'⟩ : ∃ e', d.entry? e.id = some e' :=
      Option.isSome_iff_exists.mp (List.find?_isSome.mpr ⟨e, he, by simp⟩)
    have hid : e'.id = e.id := by simpa using List.find?_some he'
    obtain rfl : e' = e := List.inj_on_of_nodup_map h (List.mem_of_find?_eq_some he') he hid
    exact he'

theorem value_eq_of_mem {d : Dump} (h : d.defined.Nodup) {e : Entry} (he : e ∈ d.values) :
    d.value e.id = e.value := by
  rw [value, (entry?_eq_some_iff h).mpr ⟨he, rfl⟩]
  rfl

/-! ## Resolving -/

section Congr

variable {f g : ValueId → Value}

theorem map_eq_map_of_references {owner : String} {ids : List ValueId}
    (h : ∀ r ∈ ids.map (Reference.mk owner), f r.id = g r.id) : ids.map f = ids.map g :=
  List.map_congr_left fun _ hid => h _ (List.mem_map_of_mem hid)

mutual

/-- A node is resolved through the values that it refers to, and no others. -/
theorem Node.resolve_congr :
    (n : Node) → (∀ r ∈ n.references, f r.id = g r.id) → n.resolve f = n.resolve g
  | ⟨kind, schema, inputs, outputs, blocks⟩, h => by
      obtain ⟨hinputs, h⟩ := List.forall_mem_append.mp h
      obtain ⟨houtputs, hblocks⟩ := List.forall_mem_append.mp h
      rw [Node.resolve, Node.resolve, map_eq_map_of_references hinputs,
        map_eq_map_of_references houtputs, resolveBlocks_congr blocks hblocks]

theorem resolveBlocks_congr :
    (bs : List Block) → (∀ r ∈ referencesInBlocks bs, f r.id = g r.id) →
      resolveBlocks f bs = resolveBlocks g bs
  | [], _ => rfl
  | b :: rest, h =>
      have hb := List.forall_mem_append.mp h
      congrArg₂ List.cons (b.resolve_congr hb.1) (resolveBlocks_congr rest hb.2)

theorem Block.resolve_congr :
    (b : Block) → (∀ r ∈ b.references, f r.id = g r.id) → b.resolve f = b.resolve g
  | ⟨inputs, outputs, nodes⟩, h => by
      obtain ⟨hinputs, h⟩ := List.forall_mem_append.mp h
      obtain ⟨houtputs, hnodes⟩ := List.forall_mem_append.mp h
      rw [Block.resolve, Block.resolve, map_eq_map_of_references hinputs,
        map_eq_map_of_references houtputs, resolveNodes_congr nodes hnodes]

theorem resolveNodes_congr :
    (ns : List Node) → (∀ r ∈ referencesInNodes ns, f r.id = g r.id) →
      resolveNodes f ns = resolveNodes g ns
  | [], _ => rfl
  | n :: rest, h =>
      have hn := List.forall_mem_append.mp h
      congrArg₂ List.cons (n.resolve_congr hn.1) (resolveNodes_congr rest hn.2)

end

end Congr

/-! ## Tables that agree -/

/-- The same graph, and tables that say the same of all that it refers to; an entry without a
literal says what one with an unsupported literal does. -/
structure Agrees (d d' : Dump) : Prop where
  inputs : d'.inputs = d.inputs
  outputs : d'.outputs = d.outputs
  nodes : d'.nodes = d.nodes
  entries : ∀ r ∈ d.references, ∀ e ∈ d.values, ∀ e' ∈ d'.values, e.id = r.id → e'.id = r.id →
    e'.type = e.type ∧ e'.literal.getD .unsupported = e.literal.getD .unsupported

theorem references_of_agrees {d d' : Dump} (h : d.Agrees d') : d'.references = d.references := by
  rw [references, references, h.inputs, h.outputs, h.nodes]

theorem value_of_agrees {d d' : Dump} (h : d.Agrees d') (hd : ∃ index, d.check = .ok index)
    (hd' : ∃ index, d'.check = .ok index) {r : Reference} (hr : r ∈ d.references) :
    d'.value r.id = d.value r.id := by
  obtain ⟨hnodup, hdefined⟩ := exists_check_eq_ok_iff.mp hd
  obtain ⟨hnodup', hdefined'⟩ := exists_check_eq_ok_iff.mp hd'
  obtain ⟨e, he, hid⟩ := List.mem_map.mp (hdefined r hr)
  obtain ⟨e', he', hid'⟩ := List.mem_map.mp (hdefined' r (references_of_agrees h ▸ hr))
  obtain ⟨htype, hliteral⟩ := h.entries r hr e he e' he' hid hid'
  calc
    d'.value r.id = e'.value := by rw [← hid', value_eq_of_mem hnodup' he']
    _ = e.value := by rw [Entry.value, Entry.value, hid', hid, htype, hliteral]
    _ = d.value r.id := by rw [← hid, value_eq_of_mem hnodup he]

theorem root_of_agrees {d d' : Dump} (h : d.Agrees d') (hd : ∃ index, d.check = .ok index)
    (hd' : ∃ index, d'.check = .ok index) : d'.root = d.root := by
  have hvalue := fun r hr => value_of_agrees (r := r) h hd hd' hr
  rw [references] at hvalue
  obtain ⟨hinputs, hvalue⟩ := List.forall_mem_append.mp hvalue
  obtain ⟨houtputs, hnodes⟩ := List.forall_mem_append.mp hvalue
  rw [root, root, resolve, resolve, h.inputs, h.outputs, h.nodes, map_eq_map_of_references hinputs,
    map_eq_map_of_references houtputs, resolveNodes_congr d.nodes hnodes]

theorem exists_check_eq_ok_iff_of_perm {d d' : Dump} (hvalues : d'.values.Perm d.values)
    (hreferences : d'.references = d.references) :
    (∃ index, d'.check = .ok index) ↔ ∃ index, d.check = .ok index := by
  have hdefined : d'.defined.Perm d.defined := hvalues.map Entry.id
  simp only [exists_check_eq_ok_iff, hdefined.nodup_iff, hdefined.mem_iff, hreferences]

end Dump

namespace Graph

/-- Graphs that differ only by their tables, and agree on what they refer to, are decoded to the
same or refused with the same fault.  Whether a dump passes its check does not depend on the order
of its table. -/
theorem decode_of_agrees :
    (∀ (d d' : Dump) (g g' : Graph), ofDump d = .ok g → ofDump d' = .ok g' → d.Agrees d' →
      ∀ names, (⟨g'.root, names⟩ : View).decode = (⟨g.root, names⟩ : View).decode) ∧
    ∀ (d : Dump) (values : List Dump.Entry), values.Perm d.values →
      ((∃ g, ofDump { d with values } = .ok g) ↔ ∃ g, ofDump d = .ok g) := by
  refine ⟨fun d d' g g' hg hg' h names => ?_, fun d values hvalues => ?_⟩
  · obtain rfl := dump_of_ofDump_eq_ok hg
    obtain rfl := dump_of_ofDump_eq_ok hg'
    rw [root_eq, root_eq, Dump.root_of_agrees h ⟨_, g.checked⟩ ⟨_, g'.checked⟩]
  · rw [exists_ofDump_eq_ok_iff, exists_ofDump_eq_ok_iff]
    exact Dump.exists_check_eq_ok_iff_of_perm hvalues rfl

/-- A branch with a constant before it that is used inside, whatever the table says of them. -/
def tabled (values : List Dump.Entry) : Dump :=
  let add : Dump.Node := { kind := "aten::add", inputs := [⟨0⟩, ⟨1⟩], outputs := [⟨2⟩] }
  { values, inputs := [⟨0⟩], outputs := [⟨3⟩],
    nodes := [{ kind := Kind.constant, outputs := [⟨1⟩] },
      { kind := "prim::If", outputs := [⟨3⟩], blocks := [{ outputs := [⟨2⟩], nodes := [add] }] }] }

/-- What the graph refers to, and a value that it does not. -/
def entries : List Dump.Entry :=
  [⟨⟨0⟩, .tensor (some "float") (some [some 2]), none⟩,
    ⟨⟨1⟩, .scalar "int", some (.scalar (.int 3))⟩, ⟨⟨2⟩, .unknownTensor, none⟩,
    ⟨⟨3⟩, .absent, none⟩, ⟨⟨4⟩, .scalar "int", none⟩]

/-- The same in another order, with a literal that says nothing, and without that value. -/
def shuffled : List Dump.Entry :=
  [⟨⟨3⟩, .absent, none⟩, ⟨⟨2⟩, .unknownTensor, some .unsupported⟩,
    ⟨⟨1⟩, .scalar "int", some (.scalar (.int 3))⟩,
    ⟨⟨0⟩, .tensor (some "float") (some [some 2]), none⟩]

theorem decode_of_agrees_tabled :
    ∃ g g' : Graph, ofDump (tabled entries) = .ok g ∧ ofDump (tabled shuffled) = .ok g' ∧
      (tabled entries).Agrees (tabled shuffled) ∧
      (⟨g'.root, .standard⟩ : View).decode = (⟨g.root, .standard⟩ : View).decode ∧
      (∃ decoded, (⟨g.root, .standard⟩ : View).decode = .ok decoded ∧
        decoded.body.nodes.map Decoded.Node.constant = [some ⟨.i32, [], [.int 3]⟩, none]) ∧
      ((∃ g, ofDump (tabled entries.reverse) = .ok g) ↔ ∃ g, ofDump (tabled entries) = .ok g) := by
  have hg : ofDump (tabled entries) = .ok ⟨tabled entries, _, rfl⟩ := rfl
  have hg' : ofDump (tabled shuffled) = .ok ⟨tabled shuffled, _, rfl⟩ := rfl
  have hagrees : (tabled entries).Agrees (tabled shuffled) := ⟨rfl, rfl, rfl, by decide⟩
  have hdecode : (⟨(tabled entries).root, .standard⟩ : View).decode =
      .ok ⟨Kind.graph, (tabled entries).root.describedBlock .standard⟩ := by
    rw [View.decode_of_regions (show (tabled entries).root.regions = [_] from rfl)]
    rfl
  rw [← root_of_ofDump_eq_ok hg] at hdecode
  exact ⟨_, _, hg, hg', hagrees, decode_of_agrees.1 _ _ _ _ hg hg' hagrees .standard,
    ⟨_, hdecode, rfl⟩, decode_of_agrees.2 (tabled entries) _ (List.reverse_perm _)⟩

end Graph

end OpGraph
