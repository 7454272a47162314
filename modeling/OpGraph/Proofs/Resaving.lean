import OpGraph.Proofs.DumpText
import OpGraph.Proofs.Json.Guarantees

/-!
# Saving what was read

A dump that was read has finite floats, and the text written for it nests at most one level deeper
than the reader went: the lists that a text may leave out are always written.
-/

namespace OpGraph

open Json Json.Reader

/-! ## Scalars and types -/

theorem Scalar.finite_ofNumber {n : Numeral} {v : Number} (h : n.number = some v) :
    (ofNumber v).finite := by
  rcases Numeral.number_cases h with ⟨i, rfl, hlow, hhigh⟩ | ⟨x, rfl, hx⟩
  · rw [ofNumber]
    split
    · rfl
    · have hmin : Int64.minValue.toInt = -2 ^ 63 := by decide
      have hsize : UInt64.size = 2 ^ 64 := by decide
      apply Binary64.finite_ofInt
      omega
  · exact hx

theorem Scalar.ensures_finite : reader.Ensures fun _ s => s.finite := by
  intro room j s h
  unfold reader at h
  split at h
  · cases hjson : ofJson? j with
    | none =>
        rw [hjson] at h
        cases h
    | some s' =>
        rw [hjson] at h
        cases h
        cases j with
        | num n =>
            obtain ⟨v, hv, rfl⟩ := Option.map_eq_some_iff.mp hjson
            exact finite_ofNumber hv
        | bool b =>
            cases hjson
            rfl
        | _ => cases hjson
  · cases h

theorem Json.Reader.ensures_depth_list {α : Type} {r : Reader α} {w : α → Json} (slack : Nat)
    (h : r.Ensures fun room a => (w a).depth ≤ room + slack) :
    r.list.Ensures fun room as => (array (as.map w)).depth ≤ room + slack := by
  refine h.list.mono ?_
  rintro room as ⟨inner, rfl, has⟩
  rw [Nat.add_right_comm]
  exact depth_array_map_le.mpr has

theorem ValueId.ensures_depth : reader.Ensures fun room id => id.json.depth ≤ room :=
  fun room _ _ _ => Nat.zero_le room

theorem Dim.ensures_depth : reader.Ensures fun room d => d.json.depth ≤ room := by
  intro room _ d _
  cases d <;> exact Nat.zero_le room

namespace ValueType

theorem ensures_depth_tensor :
    tensorReader.Ensures fun room t => (tensor t.1 t.2.1).json.depth ≤ room + 1 := by
  have helement : Reader.string.option.Ensures fun room element =>
      (Json.optional .string element).depth ≤ room := by
    intro room _ element _
    cases element <;> exact Nat.zero_le room
  have hsizes : (Reader.list Dim.reader).option.Ensures fun room sizes =>
      (Json.optional (fun dims => .array (dims.map Dim.json)) sizes).depth ≤ room :=
    Ensures.option Nat.zero_le (ensures_depth_list 0 Dim.ensures_depth)
  refine Ensures.mono (Fields.Ensures.record (.field helement ?_ (.field hsizes ?_ .done)) _) ?_
  · rintro room _ ⟨⟩
    exact Nat.zero_le room
  · rintro room _ ⟨⟩
    exact Nat.zero_le room
  · rintro _ ⟨element, sizes, _⟩ ⟨inner, rfl, helement, hsizes, _⟩
    rw [json, depth_variant, Nat.add_le_add_iff_right]
    apply depth_object_le.mpr
    simp [helement, hsizes]

theorem ensures_depth : reader.Ensures fun room t => t.json.depth ≤ room := by
  have hname (variant : String) : Reader.string.Ensures fun room name =>
      (Json.variant variant (.string name)).depth ≤ room + 1 := by
    intro room _ name _
    rw [depth_variant]
    exact Nat.succ_le_succ (Nat.zero_le room)
  refine Ensures.fix fun item hitem => Ensures.choice ?_
  simp only [List.forall_mem_cons, Variant.Ensures]
  refine ⟨ensures_depth_tensor, hname "scalar", ?_, Nat.zero_le, hname "other", nofun⟩
  refine hitem.mono fun room t ht => ?_
  rw [json, depth_variant]
  exact Nat.succ_le_succ ht

end ValueType

/-- A literal holds finite floats only. -/
theorem Literal.ensures : reader.Ensures fun room l =>
    (∀ s ∈ l.scalars, s.finite) ∧ l.json.depth ≤ room := by
  have hlist (variant : String) : (Reader.list Scalar.reader).Ensures fun room ss =>
      (∀ s ∈ ss, s.finite) ∧
        (Json.variant variant (array (ss.map Scalar.json))).depth ≤ room + 1 := by
    refine Scalar.ensures_finite.list.mono ?_
    rintro _ ss ⟨inner, rfl, hss⟩
    rw [depth_variant, Nat.add_le_add_iff_right]
    refine ⟨hss, depth_array_map_le.mpr fun s _ => ?_⟩
    rw [s.depth_json]
    exact Nat.zero_le inner
  refine Ensures.choice ?_
  simp only [List.forall_mem_cons, Variant.Ensures]
  refine ⟨?_, hlist "list", hlist "tensor", ?_, nofun⟩
  · refine Scalar.ensures_finite.mono fun room s hs => ⟨by simpa [scalars] using hs, ?_⟩
    rw [json, depth_variant, s.depth_json]
    exact Nat.succ_le_succ (Nat.zero_le room)
  · intro room
    exact ⟨fun s hs => absurd hs List.not_mem_nil, Nat.zero_le room⟩

namespace Dump

/-! ## Entries and nodes -/

theorem Entry.ensures : reader.Ensures fun room e =>
    (∀ s ∈ e.scalars, s.finite) ∧ e.json.depth ≤ room := by
  have hliteral : Literal.reader.option.Ensures fun room literal => ∀ l ∈ literal,
      (∀ s ∈ l.scalars, s.finite) ∧ l.json.depth ≤ room := by
    refine Ensures.option nofun (Literal.ensures.mono ?_)
    rintro room l hl _ ⟨⟩
    exact hl
  refine Ensures.map (Ensures.mono (Fields.Ensures.record (.field ValueId.ensures_depth ?_
    (.field ValueType.ensures_depth ?_ (.field hliteral ?_ .done))) _) ?_)
  · nofun
  · nofun
  · rintro room _ ⟨⟩
    nofun
  · rintro _ ⟨id, type, literal, _⟩ ⟨inner, rfl, hid, htype, hliteral, _⟩
    constructor
    · intro s hs
      cases literal with
      | none => cases hs
      | some l => exact (hliteral l rfl).1 s hs
    · apply depth_object_le.mpr
      cases literal with
      | none => simp [hid, htype]
      | some l => simp [hid, htype, (hliteral l rfl).2]

/-- A list that was left out is written with a bracket of its own. -/
theorem ensures_depth_listField {α : Type} {r : Json.Reader α} {w : α → Json}
    (h : r.Ensures fun room a => (w a).depth ≤ room + 1) :
    (r.list.Ensures fun room as => (array (as.map w)).depth ≤ room + 1) ∧
      ∀ room, ∀ as ∈ some [], (array (as.map w)).depth ≤ room + 1 := by
  refine ⟨ensures_depth_list 1 h, ?_⟩
  rintro room _ ⟨⟩
  exact Nat.succ_le_succ (Nat.zero_le room)

theorem ensures_depth_idsField :
    (idsReader.Ensures fun room ids => (idsJson ids).depth ≤ room + 1) ∧
      ∀ room, ∀ ids ∈ some [], (idsJson ids).depth ≤ room + 1 :=
  ensures_depth_listField (ValueId.ensures_depth.mono fun _ _ => Nat.le_succ_of_le)

theorem Block.ensures_depth {node : Json.Reader Node}
    (h : node.Ensures fun room v => v.json.depth ≤ room + 1) :
    (Block.reader node).Ensures fun room b => b.json.depth ≤ room + 1 := by
  obtain ⟨hids, hnoIds⟩ := ensures_depth_idsField
  obtain ⟨hnodes, hnoNodes⟩ := ensures_depth_listField h
  refine Ensures.map (Ensures.mono (Fields.Ensures.record (.field hids hnoIds
    (.field hids hnoIds (.field hnodes hnoNodes .done))) _) ?_)
  rintro _ ⟨inputs, outputs, nodes, _⟩ ⟨inner, rfl, hinputs, houtputs, hnodes, _⟩
  rw [Block.json, nodesJson_eq_map]
  apply depth_object_le.mpr
  simp [hinputs, houtputs, hnodes]

theorem Node.ensures_depth : reader.Ensures fun room v => v.json.depth ≤ room + 1 := by
  refine Ensures.fix fun node hnode => ?_
  obtain ⟨hids, hnoIds⟩ := ensures_depth_idsField
  obtain ⟨hblocks, hnoBlocks⟩ := ensures_depth_listField (Block.ensures_depth hnode)
  refine Ensures.map (Ensures.mono (Fields.Ensures.record (.field (ensures_true _) ?_
    (.field (ensures_true _) ?_ (.field hids hnoIds (.field hids hnoIds
      (.field hblocks hnoBlocks .done))))) _) ?_)
  · nofun
  · exact fun _ _ _ => trivial
  · rintro _ ⟨kind, schema, inputs, outputs, blocks, _⟩
      ⟨inner, rfl, _, _, hinputs, houtputs, hblocks, _⟩
    have hkind : (Json.string kind).depth ≤ inner + 1 := Nat.zero_le _
    have hschema (s : String) : (Json.string s).depth ≤ inner + 1 := Nat.zero_le _
    rw [Node.json, blocksJson_eq_map]
    apply depth_object_le.mpr
    cases schema <;> split <;> simp [hkind, hschema, hinputs, houtputs, hblocks]

theorem ensures : reader.Ensures fun room d =>
    (∀ s ∈ d.scalars, s.finite) ∧ d.json.depth ≤ room + 1 := by
  obtain ⟨hids, hnoIds⟩ := ensures_depth_idsField
  obtain ⟨hnodes, hnoNodes⟩ := ensures_depth_listField Node.ensures_depth
  have hvalues := Entry.ensures.list
  refine Ensures.map (Ensures.mono (Fields.Ensures.record (.field hvalues ?_
    (.field hids hnoIds (.field hids hnoIds (.field hnodes hnoNodes .done)))) _) ?_)
  · nofun
  · rintro _ ⟨values, inputs, outputs, nodes, _⟩
      ⟨_, rfl, ⟨inner, rfl, hvalues⟩, hinputs, houtputs, hnodes, _⟩
    have htable : (array (values.map Entry.json)).depth ≤ inner + 1 :=
      depth_array_map_le.mpr fun e he => (hvalues e he).2
    constructor
    · rw [scalars, List.forall_mem_flatMap]
      exact fun e he => (hvalues e he).1
    · rw [json, nodesJson_eq_map]
      apply depth_object_le.mpr
      simp [Nat.le_succ_of_le htable, hinputs, houtputs, hnodes]

/-! ## Saved dumps -/

end Dump

end OpGraph
