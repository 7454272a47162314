import OpGraph.Proofs.Acceptance
import OpGraph.Proofs.ReadBack
import OpGraph.Proofs.Resaving
import OpGraph.Proofs.TwiceRounded
import OpGraph.Proofs.ValueTable

/-!
# Literals beyond binary32

The constants of a decoded graph come from literals of its value table.  A literal that was read is
finite, and it stays finite in every constant but one of binary32 whose range it exceeds.  That one
is made all the same, with an infinity that is printed as null, where an integer beyond the range of
its type would have left the constant out.
-/

namespace OpGraph

/-! ## Scalars in range -/

namespace Scalar

/-- An element type takes a scalar and has a finite value for it. -/
structure HeldBy (e : Element) (s : Scalar) : Prop where
  converts : s.ConvertsTo e
  inRange : e = .f32 → ∀ x, s = .float x → x.InSingleRange

theorem finite_settled_iff {e : Element} {s : Scalar} (hs : s.finite) (h : s.ConvertsTo e) :
    (s.settled e).finite ↔ s.HeldBy e := by
  cases h with
  | intF32 n => exact iff_of_true (Binary64.finite_narrow_ofInt n) ⟨.intF32 n, nofun⟩
  | floatF32 x =>
      have hnarrow : x.narrow.widen.finite ↔ x.InSingleRange := Binary64.finite_narrow_iff hs
      constructor
      · intro hfinite
        refine ⟨.floatF32 x, ?_⟩
        rintro _ _ ⟨⟩
        exact hnarrow.mp hfinite
      · intro hheld
        exact hnarrow.mpr (hheld.inRange rfl x rfl)
  | intF64 n =>
      exact iff_of_true (Binary64.finite_ofInt (natAbs_toInt_lt n)) ⟨.intF64 n, nofun⟩
  | floatF64 x => exact iff_of_true hs ⟨.floatF64 x, nofun⟩
  | i8 hn => exact iff_of_true rfl ⟨.i8 hn, nofun⟩
  | i32 hn => exact iff_of_true rfl ⟨.i32 hn, nofun⟩
  | i64 n => exact iff_of_true rfl ⟨.i64 n, nofun⟩
  | u8 hn => exact iff_of_true rfl ⟨.u8 hn, nofun⟩
  | bool b => exact iff_of_true rfl ⟨.bool b, nofun⟩

theorem json_eq_null_iff {s : Scalar} : s.json = .null ↔ ¬ s.finite := by
  cases s with
  | int | bool =>
      refine iff_of_false (fun h => ?_) fun h => h rfl
      cases h
  | float x =>
      rw [json, Json.ofFloat, finite]
      split
      · rename_i hx
        refine iff_of_false (fun h => ?_) fun h => h hx
        cases h
      · rename_i hx
        exact iff_of_true rfl hx

/-- Scalars that were finite and converted are all finite again, and none is printed as null, when
none of them is beyond the range of binary32 in a constant of that type. -/
theorem forall_settled_finite_iff {e : Element} {values : List Scalar}
    (h : ∀ s ∈ values, s.finite ∧ s.ConvertsTo e) :
    (∀ w ∈ values.map (settled e), w.finite ∧ w.json ≠ .null) ↔
      (e = .f32 → ∀ x, .float x ∈ values → x.InSingleRange) := by
  have hsettled : ∀ s ∈ values, ((s.settled e).finite ↔ s.HeldBy e) := fun s hs =>
    finite_settled_iff (h s hs).1 (h s hs).2
  constructor
  · intro hall he x hx
    have hheld := (hsettled _ hx).mp (hall _ (List.mem_map_of_mem hx)).1
    exact hheld.inRange he x rfl
  · intro hrange w hw
    obtain ⟨s, hs, rfl⟩ := List.mem_map.mp hw
    have hfinite : (s.settled e).finite := (hsettled s hs).mpr
      ⟨(h s hs).2, fun he x hx => hrange he x (hx ▸ hs)⟩
    exact ⟨hfinite, fun hnull => json_eq_null_iff.mp hnull hfinite⟩

end Scalar

/-! ## Literals of values -/

/-- The element type, shape and scalars of the constant that a value offers. -/
inductive Value.Offers (names : TypeNames) (v : Value) :
    Element → List UInt64 → List Scalar → Prop
  | tensor {name : String} {dims : Option (List Dim)} {sizes : List UInt64} {e : Element}
      {values : List Scalar} (type : v.type = .tensor (some name) dims)
      (literal : v.literal = .tensor values) (known : v.type.knownSizes = some sizes)
      (element : names.get? name = some e) : Offers names v e sizes values
  | scalar {name : String} {e : Element} {value : Scalar} (type : v.type = .scalar name)
      (literal : v.literal = .scalar value) (element : names.get? name = some e) :
      Offers names v e [] [value]
  | list {name : String} {e : Element} {values : List Scalar}
      (type : v.type = .list (.scalar name)) (literal : v.literal = .list values)
      (element : names.get? name = some e) : Offers names v e [.ofNat values.length] values

namespace Value

variable {names : TypeNames} {v : Value} {e : Element} {shape : List UInt64}
  {values : List Scalar}

theorem Offers.scalars_eq (h : v.Offers names e shape values) : v.literal.scalars = values := by
  cases h with
  | tensor _ literal => rw [literal]; rfl
  | scalar _ literal => rw [literal]; rfl
  | list _ literal => rw [literal]; rfl

theorem Offers.constant_eq (h : v.Offers names e shape values) :
    v.constant names = Constant.ofScalars? e shape values := by
  cases h with
  | tensor type literal known element =>
      rw [type] at known
      simp [constant, type, literal, known, element]
  | scalar type literal element => simp [constant, type, literal, element]
  | list type literal element => simp [constant, type, literal, element]

theorem exists_offers_of_constant_eq_some {c : Constant} (h : v.constant names = some c) :
    ∃ values, v.Offers names c.element c.shape values ∧
      Constant.ofScalars? c.element c.shape values = some c := by
  unfold constant at h
  split at h
  · rename_i name dims values htype hliteral
    obtain ⟨sizes, hsizes, h⟩ := Option.bind_eq_some_iff.mp h
    obtain ⟨e, he, h⟩ := Option.bind_eq_some_iff.mp h
    obtain ⟨rfl, rfl, _⟩ := Constant.of_ofScalars?_eq_some h
    exact ⟨values, .tensor htype hliteral hsizes he, h⟩
  · rename_i name value htype hliteral
    obtain ⟨e, he, h⟩ := Option.bind_eq_some_iff.mp h
    obtain ⟨rfl, hshape, _⟩ := Constant.of_ofScalars?_eq_some h
    rw [hshape]
    exact ⟨[value], .scalar htype hliteral he, h⟩
  · rename_i name values htype hliteral
    obtain ⟨e, he, h⟩ := Option.bind_eq_some_iff.mp h
    obtain ⟨rfl, hshape, _⟩ := Constant.of_ofScalars?_eq_some h
    rw [hshape]
    exact ⟨values, .list htype hliteral he, h⟩
  · cases h

/-- What is read back from the constant that a value stands for. -/
theorem settled_of_constant_eq_some {c : Constant} (h : v.constant names = some c)
    (hfinite : ∀ s ∈ v.literal.scalars, s.finite) :
    ∃ values, v.Offers names c.element c.shape values ∧
      (Decoded.Constant.of c).values = values.map (Scalar.settled c.element) ∧
      ∀ s ∈ values, s.finite ∧ s.ConvertsTo c.element := by
  obtain ⟨values, hoffers, hmade⟩ := exists_offers_of_constant_eq_some h
  obtain ⟨hscalars, _⟩ := Constant.scalars_of_ofScalars?_eq_some hmade
  obtain ⟨hmatches, _⟩ := Constant.isSome_ofScalars?_iff.mp (Option.isSome_of_eq_some hmade)
  rw [hoffers.scalars_eq] at hfinite
  refine ⟨values, hoffers, ?_, fun s hs => ⟨hfinite s hs, hmatches.values s hs⟩⟩
  rw [Decoded.Constant.of, hscalars]
  rfl

theorem Offers.constant_eq_none (h : v.Offers names e shape values)
    (hs : ∃ s ∈ values, ¬ s.ConvertsTo e) : v.constant names = none := by
  obtain ⟨s, hs, hconverts⟩ := hs
  rw [h.constant_eq, ← Option.not_isSome_iff_eq_none, Constant.isSome_ofScalars?_iff]
  rintro ⟨hmatches, _⟩
  exact hconverts (hmatches.values s hs)

end Value

/-! ## Nodes and their entries -/

/-- The outputs of a node, and of all nodes inside it, are looked up. -/
inductive Node.DrawsFrom (lookup : ValueId → Value) : Node → Prop
  | intro {n : Node} (outputs : ∃ ids : List ValueId, n.outputs = ids.map lookup)
      (inner : ∀ b ∈ n.regions, ∀ c ∈ b.contents, DrawsFrom lookup c) : DrawsFrom lookup n

namespace Dump

section Resolving

variable (lookup : ValueId → Value)

mutual

theorem Node.drawsFrom_resolve : (n : Node) → (n.resolve lookup).DrawsFrom lookup
  | ⟨_, _, _, outputs, blocks⟩ => .intro ⟨outputs, rfl⟩ (drawsFrom_resolveBlocks blocks)

theorem drawsFrom_resolveBlocks :
    (bs : List Block) → ∀ b ∈ resolveBlocks lookup bs, ∀ c ∈ b.contents, c.DrawsFrom lookup
  | [], _, hb => absurd hb List.not_mem_nil
  | ⟨_, _, nodes⟩ :: rest, b, hb => by
      rcases List.mem_cons.mp hb with rfl | hb
      · exact drawsFrom_resolveNodes nodes
      · exact drawsFrom_resolveBlocks rest b hb

theorem drawsFrom_resolveNodes : (ns : List Node) → ∀ c ∈ resolveNodes lookup ns, c.DrawsFrom lookup
  | [], _, hc => absurd hc List.not_mem_nil
  | n :: rest, c, hc => by
      rcases List.mem_cons.mp hc with rfl | hc
      · exact n.drawsFrom_resolve
      · exact drawsFrom_resolveNodes rest c hc

end

end Resolving

variable {d : Dump} {names : TypeNames}

theorem exists_node_of_mem_nodes {r : Decoded.Region} (hr : r.Within (d.root.describedBlock names))
    {n : Decoded.Node} (hn : n ∈ r.nodes) :
    ∃ m : OpGraph.Node, n = m.described names ∧ ∃ ids : List ValueId, m.outputs = ids.map d.value := by
  obtain ⟨b, hb, rfl⟩ := Node.exists_inner_of_within_describedBlock
    (P := fun b => ∀ c ∈ b.contents, c.DrawsFrom d.value)
    (fun b hb n hn c hc => by
      obtain ⟨_, hinner⟩ := hb n hn
      exact hinner c hc)
    (b := d.root) (drawsFrom_resolveNodes d.value d.nodes) hr
  rw [OpGraph.Node.describedBlock_eq] at hn
  obtain ⟨m, hm, rfl⟩ := List.mem_map.mp hn
  obtain ⟨houtputs, _⟩ := hb m hm
  exact ⟨m, rfl, houtputs⟩

/-- A value that stands for a constant has an entry. -/
theorem exists_entry_of_constant_eq_some {id : ValueId} {c : Constant}
    (h : (d.value id).constant names = some c) : ∃ e ∈ d.values, e.id = id ∧ d.value id = e.value := by
  cases he : d.entry? id with
  | none =>
      rw [value, he] at h
      cases h
  | some e =>
      have hid : e.id = id := by simpa using List.find?_some he
      refine ⟨e, List.mem_of_find?_eq_some he, hid, ?_⟩
      rw [value, he, valueOf, Entry.value, hid]

section Outputs

variable {m : OpGraph.Node} {ids : List ValueId} {e : Entry}

theorem id_head?_of_outputs_eq (h : m.outputs = ids.map d.value) :
    (m.outputs.map (.of names)).head?.map Decoded.Value.id = ids.head? := by
  rw [h]
  cases ids with
  | nil => rfl
  | cons id ids => exact congrArg some (d.value_id id)

theorem exists_entry_of_node_constant {c : Constant} (hids : m.outputs = ids.map d.value)
    (h : m.constant names = some c) :
    ∃ e ∈ d.values, ids.head? = some e.id ∧ e.value.constant names = some c := by
  obtain ⟨_, v, rest, hv, hvalue⟩ := OpGraph.Node.of_constant_eq_some h
  obtain ⟨id, ids, rfl, rfl, rfl⟩ := List.map_eq_cons_iff.mp (hids.symm.trans hv)
  obtain ⟨e, he, rfl, heq⟩ := exists_entry_of_constant_eq_some hvalue
  exact ⟨e, he, rfl, heq ▸ hvalue⟩

theorem node_constant_eq_none (hnodup : d.defined.Nodup) (hids : m.outputs = ids.map d.value)
    (he : e ∈ d.values) (hfirst : ids.head? = some e.id) (h : e.value.constant names = none) :
    m.constant names = none := by
  obtain ⟨rest, rfl⟩ := List.head?_eq_some_iff.mp hfirst
  rw [← value_eq_of_mem hnodup he] at h
  rw [OpGraph.Node.constant, hids]
  split
  · exact h
  · rfl

end Outputs

theorem finite_of_parse {text : String} (h : parse text = .ok d) {e : Entry} (he : e ∈ d.values) :
    ∀ s ∈ e.value.literal.scalars, s.finite := by
  have hscalars : e.value.literal.scalars = e.scalars := by
    rw [Entry.value, Entry.scalars]
    cases e.literal <;> rfl
  obtain ⟨d', hread, hended⟩ := Json.exists_of_bind_eq_ok h
  split at hended
  · cases hended
    rw [hscalars]
    exact fun s hs => (ensures _ _ d hread).1 s (List.mem_flatMap_of_mem he hs)
  · cases hended

end Dump

/-! ## Decoded constants -/

namespace Graph

variable {text : String} {d : Dump} {g : Graph} {names : TypeNames} {decoded : Decoded.Graph}
  {r : Decoded.Region} {n : Decoded.Node}

/-- A decoded constant holds what its element type has settled of the finite scalars that the entry
of its output offers.  One of them is no longer finite, and then printed as null, exactly when it is
a float beyond the range of binary32 in a constant of that type.  Of a scalar that does not convert
at all there is no constant. -/
theorem finite_iff_heldBy_of_parse (hparse : Dump.parse text = .ok d) (hg : ofDump d = .ok g)
    (h : (⟨g.root, names⟩ : View).decode = .ok decoded) (hr : r.Within decoded.body)
    (hn : n ∈ r.nodes) :
    (∀ c, n.constant = some c → ∃ e ∈ d.values, ∃ values,
      n.outputs.head?.map Decoded.Value.id = some e.id ∧
      e.value.Offers names c.element c.shape values ∧
      c.values = values.map (Scalar.settled c.element) ∧
      (∀ s ∈ values, s.finite ∧ s.ConvertsTo c.element ∧
        ((s.settled c.element).finite ↔ s.HeldBy c.element) ∧
        ((s.settled c.element).json = .null ↔ ¬ s.HeldBy c.element)) ∧
      ((∀ w ∈ c.values, w.finite ∧ w.json ≠ .null) ↔
        (c.element = .f32 → ∀ x, .float x ∈ values → x.InSingleRange))) ∧
    ∀ e ∈ d.values, n.outputs.head?.map Decoded.Value.id = some e.id →
      ∀ element shape values, e.value.Offers names element shape values →
        (∃ s ∈ values, ¬ s.ConvertsTo element) → n.constant = none := by
  obtain rfl := dump_of_ofDump_eq_ok hg
  obtain ⟨hnodup, _⟩ := Dump.exists_check_eq_ok_iff.mp ⟨_, g.checked⟩
  rw [root_eq] at h
  obtain ⟨block, hblock, rfl, _⟩ := View.exists_region_of_decode_eq_ok h
  obtain rfl : g.dump.root = block := List.singleton_inj.mp hblock
  obtain ⟨m, rfl, ids, hids⟩ := Dump.exists_node_of_mem_nodes hr hn
  have hfirst : (m.outputs.map (.of names)).head?.map Decoded.Value.id = ids.head? :=
    Dump.id_head?_of_outputs_eq hids
  rw [Node.described_eq]
  refine ⟨fun c hc => ?_, fun e he hid element shape values hoffers hs => ?_⟩
  · obtain ⟨c', hc', rfl⟩ := Option.map_eq_some_iff.mp hc
    obtain ⟨e, he, hid, hvalue⟩ := Dump.exists_entry_of_node_constant hids hc'
    obtain ⟨values, hoffers, hvalues, hscalars⟩ :=
      Value.settled_of_constant_eq_some hvalue (Dump.finite_of_parse hparse he)
    refine ⟨e, he, values, hfirst.trans hid, hoffers, hvalues, fun s hs => ?_, ?_⟩
    · obtain ⟨hs, hconverts⟩ := hscalars s hs
      have hheld := Scalar.finite_settled_iff hs hconverts
      exact ⟨hs, hconverts, hheld, Scalar.json_eq_null_iff.trans (not_congr hheld)⟩
    · rw [hvalues]
      exact Scalar.forall_settled_finite_iff hscalars
  · have hnone := Dump.node_constant_eq_none hnodup hids he (hfirst.symm.trans hid)
      (hoffers.constant_eq_none hs)
    exact Option.map_eq_none_iff.mpr hnone

/-- `1e39` and an integer for binary32, and an integer beyond its own type. -/
def overflowing : Dump where
  values :=
    [{ id := ⟨0⟩, type := .tensor (some "float") (some [some 2]),
       literal := some (.tensor [.float ⟨0x48078287F49C4A1D⟩, .int 7]) },
      { id := ⟨1⟩, type := .scalar "int", literal := some (.scalar (.int 2147483648)) }]
  nodes :=
    [{ kind := Kind.constant, outputs := [⟨0⟩] }, { kind := Kind.constant, outputs := [⟨1⟩] }]

theorem parse_overflowing : Dump.parse overflowing.json.compact = .ok overflowing :=
  (Dump.gives_parse (by decide +kernel) List.mem_cons_self).eq_ok_iff.mpr (by decide +kernel)

theorem decode_overflowing : (⟨overflowing.root, .standard⟩ : View).decode =
    .ok ⟨Kind.graph, overflowing.root.describedBlock .standard⟩ := by
  rw [View.decode_of_regions (show overflowing.root.regions = [_] from rfl)]
  rfl

theorem finite_iff_heldBy_of_parse_overflowing :
    ∃ g : Graph, ofDump overflowing = .ok g ∧
      ∃ decoded, (⟨g.root, .standard⟩ : View).decode = .ok decoded ∧
        ∃ n rest, decoded.body.nodes = n :: rest ∧ ∃ c, n.constant = some c ∧
          ∃ e ∈ overflowing.values, ∃ values,
            e.value.Offers .standard c.element c.shape values ∧
            c.values = values.map (Scalar.settled c.element) := by
  have hg : ofDump overflowing = .ok ⟨overflowing, _, rfl⟩ := rfl
  have h := decode_overflowing
  rw [← root_of_ofDump_eq_ok hg] at h
  obtain ⟨hheld, _⟩ := finite_iff_heldBy_of_parse parse_overflowing hg h (.refl _)
    List.mem_cons_self
  obtain ⟨e, he, values, _, hoffers, hvalues, _⟩ := hheld _ rfl
  exact ⟨_, hg, _, h, _, _, rfl, _, rfl, e, he, values, hoffers, hvalues⟩

/-- The float becomes an infinity and is printed as null; the integer has no constant. -/
theorem null_of_overflowing :
    Dump.parse overflowing.json.compact = .ok overflowing ∧
      ∃ g : Graph, ofDump overflowing = .ok g ∧
        ∃ decoded, (⟨g.root, .standard⟩ : View).decode = .ok decoded ∧
          decoded.body.nodes.map Decoded.Node.constant =
            [some ⟨.f32, [2], [.float ⟨0x7FF0000000000000⟩, .float ⟨0x401C000000000000⟩]⟩, none] ∧
          ¬ Scalar.finite (.float ⟨0x7FF0000000000000⟩) ∧
          Scalar.json (.float ⟨0x7FF0000000000000⟩) = .null := by
  have hg : ofDump overflowing = .ok ⟨overflowing, _, rfl⟩ := rfl
  have h := decode_overflowing
  rw [← root_of_ofDump_eq_ok hg] at h
  refine ⟨parse_overflowing, _, hg, _, h, ?_, by decide, rfl⟩
  decide +kernel

end Graph

end OpGraph
