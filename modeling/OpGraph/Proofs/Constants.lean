import Mathlib.Algebra.BigOperators.Group.List.Basic
import OpGraph.Proofs.Captures
import OpGraph.Proofs.KnownTypes

/-!
# Constants are well formed

A constant has as many values as its shape has places, each of the form and in the range of its
element type, and what is said of the output that it comes from does not contradict it.  Every
constant can be read back, so nothing stands in for values that cannot.
-/

namespace OpGraph

/-! ## Making constants -/

/-- A scalar of the form that an element type calls for, and in its range. -/
inductive Scalar.OfElement : Element → Scalar → Prop
  | f32 (x : Binary32) : OfElement .f32 (.float x.widen)
  | f64 (x : Binary64) : OfElement .f64 (.float x)
  | i8 {n : Int64} (h : -2 ^ 7 ≤ n.toInt ∧ n.toInt < 2 ^ 7) : OfElement .i8 (.int n)
  | i32 {n : Int64} (h : -2 ^ 31 ≤ n.toInt ∧ n.toInt < 2 ^ 31) : OfElement .i32 (.int n)
  | i64 (n : Int64) : OfElement .i64 (.int n)
  | u8 {n : Int64} (h : 0 ≤ n.toInt ∧ n.toInt < 2 ^ 8) : OfElement .u8 (.int n)
  | bool (b : Bool) : OfElement .bool (.bool b)

namespace Payload

theorem element_ne_dynamic (p : Payload) : p.element ≠ .dynamic := by
  cases p <;> exact nofun

/-- Whatever the storage holds, it is read back as scalars of its element type. -/
theorem ofElement_of_mem_scalars {p : Payload} {s : Scalar} (hs : s ∈ p.scalars) :
    s.OfElement p.element := by
  cases p with
  | f32 xs =>
      obtain ⟨x, _, rfl⟩ := List.mem_map.mp hs
      exact .f32 x
  | f64 xs =>
      obtain ⟨x, _, rfl⟩ := List.mem_map.mp hs
      exact .f64 x
  | i8 ns =>
      obtain ⟨n, _, rfl⟩ := List.mem_map.mp hs
      exact .i8 (n.toInt_toInt64.symm ▸ ⟨n.le_toInt, n.toInt_lt⟩)
  | i32 ns =>
      obtain ⟨n, _, rfl⟩ := List.mem_map.mp hs
      exact .i32 (n.toInt_toInt64.symm ▸ ⟨n.le_toInt, n.toInt_lt⟩)
  | i64 ns =>
      obtain ⟨n, _, rfl⟩ := List.mem_map.mp hs
      exact .i64 n
  | u8 ns =>
      obtain ⟨n, _, rfl⟩ := List.mem_map.mp hs
      have hn : n.toNat < 2 ^ 8 := n.toNat_lt
      have hint : (Int64.ofNat n.toNat).toInt = n.toNat := Int64.toInt_ofNat_of_lt (by omega)
      exact .u8 (hint.symm ▸ ⟨by omega, by omega⟩)
  | bool bs =>
      obtain ⟨b, _, rfl⟩ := List.mem_map.mp hs
      exact .bool b

theorem of_ofScalars?_eq_some {values : List Scalar} {e : Element} {p : Payload}
    (h : ofScalars? values e = some p) :
    p.element = e ∧ p.scalars.length = values.length := by
  cases e with
  | dynamic => cases h
  | _ =>
      obtain ⟨xs, hxs, rfl⟩ := Option.map_eq_some_iff.mp h
      have hlength := (mapM_eq_some_iff_forall₂.mp hxs).length_eq
      exact ⟨rfl, (List.length_map _).trans hlength.symm⟩

end Payload

namespace Constant

theorem prod_eq_of_foldlM_eq_some {shape : List UInt64} {start count : Nat}
    (h : shape.foldlM (fun count n =>
      if count * n.toNat < UInt64.size then some (count * n.toNat) else none) start =
        some count) : start * (shape.map UInt64.toNat).prod = count := by
  induction shape generalizing start with
  | nil => simpa using h
  | cons n shape ih =>
      rw [List.foldlM_cons] at h
      obtain ⟨next, hnext, h⟩ := Option.bind_eq_some_iff.mp h
      split at hnext
      · obtain rfl := Option.some.inj hnext
        rw [List.map_cons, List.prod_cons, ← Nat.mul_assoc]
        exact ih h
      · cases hnext

theorem elementCount_eq_some {shape : List UInt64} {count : Nat}
    (h : elementCount shape = some count) : (shape.map UInt64.toNat).prod = count := by
  rw [← prod_eq_of_foldlM_eq_some h, Nat.one_mul]

theorem ofScalars?_eq_some_iff {e : Element} {shape : List UInt64} {values : List Scalar}
    {c : Constant} : ofScalars? e shape values = some c ↔
      elementCount shape = some values.length ∧
        ∃ p, Payload.ofScalars? values e = some p ∧ ⟨e, shape, p⟩ = c := by
  rw [ofScalars?, Option.ite_none_right_eq_some, Option.map_eq_some_iff]

/-- A constant that was made from scalars. -/
structure Made (c : Constant) : Prop where
  element : c.payload.element = c.element
  size : (c.shape.map UInt64.toNat).prod = c.payload.scalars.length

theorem of_ofScalars?_eq_some {e : Element} {shape : List UInt64} {values : List Scalar}
    {c : Constant} (h : ofScalars? e shape values = some c) :
    c.element = e ∧ c.shape = shape ∧ c.Made := by
  unfold ofScalars? at h
  split at h
  · rename_i hcount
    obtain ⟨p, hp, rfl⟩ := Option.map_eq_some_iff.mp h
    obtain ⟨helement, hlength⟩ := Payload.of_ofScalars?_eq_some hp
    exact ⟨rfl, rfl, helement, (elementCount_eq_some hcount).trans hlength.symm⟩
  · cases h

theorem Made.scalars_eq {c : Constant} (h : c.Made) : c.scalars = some c.payload.scalars :=
  if_pos h.element

end Constant

/-! ## Constants of nodes -/

/-- A value that stands for a constant tells of it what is true, if anything. -/
theorem Value.of_constant_eq_some {names : TypeNames} {v : Value} {c : Constant}
    (h : v.constant names = some c) :
    c.Made ∧ (v.element names = .dynamic ∨ v.element names = c.element) ∧
      (v.shape = .dynamic ∨ v.shape = .static c.shape) := by
  unfold Value.constant at h
  split at h
  · rename_i name dims values htype _
    obtain ⟨sizes, hsizes, h⟩ := Option.bind_eq_some_iff.mp h
    obtain ⟨e, he, h⟩ := Option.bind_eq_some_iff.mp h
    obtain ⟨rfl, rfl, hmade⟩ := Constant.of_ofScalars?_eq_some h
    refine ⟨hmade, .inr ?_, .inr ?_⟩
    · exact element_eq_of_get?_eq_some (htype ▸ .tensor name dims) he
    · exact shape_eq_static (ValueType.knownSizes_eq_some_iff.mp hsizes)
  · rename_i name value htype _
    obtain ⟨e, he, h⟩ := Option.bind_eq_some_iff.mp h
    obtain ⟨rfl, _, hmade⟩ := Constant.of_ofScalars?_eq_some h
    refine ⟨hmade, .inr ?_, .inl ?_⟩
    · exact element_eq_of_get?_eq_some (htype ▸ .scalar name) he
    · exact shape_eq_dynamic (htype ▸ nofun)
  · rename_i name values htype _
    obtain ⟨e, he, h⟩ := Option.bind_eq_some_iff.mp h
    obtain ⟨_, _, hmade⟩ := Constant.of_ofScalars?_eq_some h
    refine ⟨hmade, .inl ?_, .inl ?_⟩
    · exact element_eq_dynamic names (htype ▸ nofun)
    · exact shape_eq_dynamic (htype ▸ nofun)
  · cases h

theorem Node.of_constant_eq_some {names : TypeNames} {n : Node} {c : Constant}
    (h : n.constant names = some c) :
    n.kind = Kind.constant ∧ ∃ v rest, n.outputs = v :: rest ∧ v.constant names = some c := by
  unfold Node.constant at h
  split at h
  · rename_i hkind
    obtain ⟨v, hv, h⟩ := Option.bind_eq_some_iff.mp h
    obtain ⟨rest, hrest⟩ := List.head?_eq_some_iff.mp hv
    exact ⟨hkind, v, rest, hrest, h⟩
  · cases h

/-! ## Decoded constants -/

namespace Decoded

/-- The values fill the shape, and each is one of the element type. -/
structure Constant.WellFormed (c : Constant) : Prop where
  element : c.element ≠ .dynamic
  size : (c.shape.map UInt64.toNat).prod = c.values.length
  values : ∀ s ∈ c.values, s.OfElement c.element

/-- What is known of a value agrees with a constant. -/
structure Value.AgreesWith (v : Value) (c : Constant) : Prop where
  element : v.element = .dynamic ∨ v.element = c.element
  shape : v.shape = .dynamic ∨ v.shape = .static c.shape

theorem Constant.wellFormed_of_made {c : OpGraph.Constant} (h : c.Made) :
    (Constant.of c).WellFormed := by
  have hvalues : (Constant.of c).values = c.payload.scalars := by
    rw [Constant.of, h.scalars_eq]
    rfl
  have helement : (Constant.of c).element = c.payload.element := h.element.symm
  refine ⟨?_, ?_, ?_⟩
  · rw [helement]
    exact c.payload.element_ne_dynamic
  · rw [hvalues]
    exact h.size
  · rw [hvalues, helement]
    exact fun s hs => Payload.ofElement_of_mem_scalars hs

end Decoded

namespace View

/-- The constant of a node can always be read back.  In a decoded graph a node with a constant is
one that is for constants, and it has an output; the constant is well formed and agrees with what is
known of that output. -/
theorem wellFormed_constant_of_decode :
    (∀ (n : Node) (names : TypeNames) (c : Constant), n.constant names = some c →
      ∃ values, c.scalars = some values) ∧
    ∀ (v : View) (g : Decoded.Graph), v.decode = .ok g → ∀ r : Decoded.Region, r.Within g.body →
      ∀ n ∈ r.nodes, ∀ c, n.constant = some c →
        n.kind = Kind.constant ∧ c.WellFormed ∧
          ∃ output rest, n.outputs = output :: rest ∧ output.AgreesWith c := by
  refine ⟨fun n names c h => ?_, fun v g hg r hr d hd c hconstant => ?_⟩
  · obtain ⟨_, v, _, _, hv⟩ := Node.of_constant_eq_some h
    exact ⟨_, (Value.of_constant_eq_some hv).1.scalars_eq⟩
  · obtain ⟨block, _, rfl, _⟩ := exists_region_of_decode_eq_ok hg
    obtain ⟨b, rfl⟩ := Node.exists_of_within_describedBlock hr
    rw [Node.describedBlock_eq] at hd
    obtain ⟨n, _, rfl⟩ := List.mem_map.mp hd
    rw [Node.described_eq] at hconstant
    obtain ⟨c, hc, rfl⟩ := Option.map_eq_some_iff.mp hconstant
    obtain ⟨hkind, value, rest, houtputs, hvalue⟩ := Node.of_constant_eq_some hc
    obtain ⟨hmade, helement, hshape⟩ := Value.of_constant_eq_some hvalue
    refine ⟨(n.described_kind v.names).trans hkind, Decoded.Constant.wellFormed_of_made hmade, ?_⟩
    refine ⟨.of v.names value, rest.map (.of v.names), ?_, helement, hshape⟩
    rw [Node.described_outputs, houtputs, List.map_cons]

/-- A constant of four bytes. -/
def packed : Node :=
  { kind := Kind.constant
    outputs :=
      [{ id := ⟨0⟩, type := .tensor (some "byte") (some [some 2, some 2])
         literal := .tensor [.int 1, .int 2, .int 3, .int 255] }] }

/-- A loop around it, under a table that has a name for bytes. -/
def packing : View :=
  let block : Node := { kind := Kind.block, outputs := packed.outputs, body := some [packed] }
  ⟨{ kind := Kind.graph, body := some [{ kind := "prim::Loop", blocks := [block] }] },
    TypeNames.standard.add "byte" .u8⟩

theorem wellFormed_constant_of_decode_packing :
    (∃ c, packed.constant packing.names = some c ∧ ∃ values, c.scalars = some values) ∧
    ∃ (g : Decoded.Graph) (r : Decoded.Region) (n : Decoded.Node) (c : Decoded.Constant),
      packing.decode = .ok g ∧ r.Within g.body ∧ n ∈ r.nodes ∧ n.constant = some c ∧
      c = ⟨.u8, [2, 2], [.int 1, .int 2, .int 3, .int 255]⟩ ∧ n.kind = Kind.constant ∧
      c.WellFormed ∧ ∃ output rest, n.outputs = output :: rest ∧ output.AgreesWith c := by
  have h : packing.decode = .ok ⟨Kind.graph, packing.node.describedBlock packing.names⟩ := by
    rw [decode_of_regions (show packing.node.regions = [packing.node] from rfl)]
    rfl
  have hwithin {m : Decoded.Node} {s : Decoded.Region}
      (hm : m ∈ (packing.node.describedBlock packing.names).nodes) (hs : s ∈ m.regions) :
      s.Within (packing.node.describedBlock packing.names) :=
    .nested hm hs (.refl s)
  have hregion := hwithin List.mem_cons_self List.mem_cons_self
  refine ⟨⟨_, rfl, wellFormed_constant_of_decode.1 packed packing.names _ rfl⟩, ?_⟩
  exact ⟨_, _, _, _, h, hregion, List.mem_cons_self, rfl, rfl,
    wellFormed_constant_of_decode.2 packing _ h _ hregion _ List.mem_cons_self _ rfl⟩

end View

end OpGraph
