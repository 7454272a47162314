import OpGraph.Proofs.DumpText
import OpGraph.Proofs.SettingsText
import OpGraph.Proofs.Walk

/-!
# The text of a decoded graph

Decoded graphs that are printed alike are the same, as long as the floats in their constants are
finite: a member that is left out stands for one value only, and no other member can be taken for
it.
-/

namespace OpGraph

open Json Json.Reader

/-! ## Parts -/

namespace Json

theorem string_inj {s t : String} (h : Json.string s = Json.string t) : s = t :=
  Option.some.inj (Json.text.inj h)

theorem array_inj {js ks : List Json} (h : array js = array ks) : js = ks := (Json.list.inj h).1

theorem object_inj {ms ns : List (String × Json)} (h : object ms = object ns) : ms = ns := by
  have hnamed : Function.Injective fun m : String × Json => (some m.1, m.2) := by
    rintro ⟨_, _⟩ ⟨_, _⟩ hm
    cases hm
    rfl
  exact List.map_injective_iff.mpr hnamed (Json.record.inj h).1

end Json

variable {bound : Nat}

theorem Shape.readsBack (s : Shape) : reader.ReadsBack bound s.json s True := by
  cases s with
  | dynamic => exact readsBack_plain rfl
  | ranked dims =>
      have hdims : (Reader.list Dim.reader).ReadsBack (bound - 1) (.array (dims.map Dim.json)) dims
          True := (readsBack_list fun d _ => Dim.readsBack d).congr (by simp)
      exact ReadsBack.carrying hdims rfl rfl

theorem ValueId.json_injective : Function.Injective ValueId.json := by
  intro id id' h
  exact eq_of_readsBack (fun id _ => ValueId.readsBack id) trivial trivial h

namespace Scalar

@[simp] theorem json_int (n : Int64) : (int n).json = .num (.ofInt n.toInt) := rfl

theorem json_float {x : Binary64} (h : x.finite) : (float x).json = .num (.ofFloat x) := if_pos h

/-- Scalars are told apart by what is written for them, whatever that is read as. -/
theorem eq_of_json_eq {s t : Scalar} (hs : s.finite) (ht : t.finite) (h : s.json = t.json) :
    s = t := by
  cases s with
  | int n =>
      cases t with
      | int m => exact congrArg int (Int64.toInt_inj.mp (Numeral.ofInt_inj (num.inj h)))
      | float y =>
          rw [json_int, json_float ht, num.injEq] at h
          exact absurd h (Numeral.ofInt_ne_ofFloat _ y)
      | bool b => cases h
  | float x =>
      rw [json_float hs] at h
      cases t with
      | int m => exact absurd (num.inj h).symm (Numeral.ofInt_ne_ofFloat _ x)
      | float y =>
          rw [json_float ht, num.injEq] at h
          exact congrArg float (Numeral.ofFloat_inj hs ht h)
      | bool b => cases h
  | bool b =>
      cases t with
      | int m => cases h
      | float y =>
          rw [json_float ht] at h
          cases h
      | bool c =>
          cases h
          rfl

theorem eq_of_map_json_eq {ss ts : List Scalar} (hs : ∀ s ∈ ss, s.finite)
    (ht : ∀ t ∈ ts, t.finite) (h : ss.map json = ts.map json) : ss = ts := by
  induction ss generalizing ts with
  | nil => exact (List.map_eq_nil_iff.mp h.symm).symm
  | cons s ss ih =>
      cases ts with
      | nil => cases h
      | cons t ts =>
          obtain ⟨hhead, htail⟩ := List.cons.inj h
          rw [List.forall_mem_cons] at hs ht
          rw [eq_of_json_eq hs.1 ht.1 hhead, ih hs.2 ht.2 htail]

end Scalar

namespace Decoded

/-! ## Members that may be left out -/

section Members

variable {name : String} {ms ns : List (String × Json)}

theorem first_inj {j k : Json} (h : (name, j) :: ms = (name, k) :: ns) : j = k ∧ ms = ns := by
  obtain ⟨hfirst, hrest⟩ := List.cons.inj h
  exact ⟨(Prod.mk.inj hfirst).2, hrest⟩

theorem ne_cons_of_forall_ne {j : Json} (h : ∀ m ∈ ms, m.1 ≠ name) : ms ≠ (name, j) :: ns := by
  rintro rfl
  exact h _ List.mem_cons_self rfl

/-- Where no member of the same name follows, it can be told whether one was left out. -/
theorem member_append_inj {i j : Option Json} (hms : ∀ m ∈ ms, m.1 ≠ name)
    (hns : ∀ n ∈ ns, n.1 ≠ name) (h : member name i ++ ms = member name j ++ ns) :
    i = j ∧ ms = ns := by
  cases i with
  | none =>
      cases j with
      | none => exact ⟨rfl, h⟩
      | some j => exact absurd h (ne_cons_of_forall_ne hms)
  | some i =>
      cases j with
      | none => exact absurd h.symm (ne_cons_of_forall_ne hns)
      | some j =>
          obtain ⟨hvalue, hrest⟩ := first_inj h
          exact ⟨congrArg some hvalue, hrest⟩

theorem listMember_eq (name : String) (items : List Json) : listMember name items =
    member name (if items.isEmpty then none else some (.array items)) := by
  cases items <;> rfl

theorem listMember_append_inj {is js : List Json} (hms : ∀ m ∈ ms, m.1 ≠ name)
    (hns : ∀ n ∈ ns, n.1 ≠ name) (h : listMember name is ++ ms = listMember name js ++ ns) :
    is = js ∧ ms = ns := by
  rw [listMember_eq, listMember_eq] at h
  obtain ⟨hitems, hrest⟩ := member_append_inj hms hns h
  refine ⟨?_, hrest⟩
  cases is with
  | nil =>
      cases js with
      | nil => rfl
      | cons j js => cases hitems
  | cons i is =>
      cases js with
      | nil => cases hitems
      | cons j js => exact array_inj (Option.some.inj hitems)

theorem ne_of_mem_member {other : String} {i : Option Json} (h : other ≠ name) :
    ∀ m ∈ member other i, m.1 ≠ name := by
  intro m hm
  cases i with
  | none => cases hm
  | some j =>
      rw [List.mem_singleton.mp hm]
      exact h

theorem ne_of_mem_listMember {other : String} {items : List Json} (h : other ≠ name) :
    ∀ m ∈ listMember other items, m.1 ≠ name := by
  rw [listMember_eq]
  exact ne_of_mem_member h

theorem whole_of_mem_member {i : Option Json} (h : ∀ j ∈ i, j.Whole) :
    ∀ m ∈ member name i, m.2.Whole := by
  intro m hm
  cases i with
  | none => cases hm
  | some j =>
      rw [List.mem_singleton.mp hm]
      exact h j rfl

theorem whole_of_mem_listMember {items : List Json} (h : WholeItems items) :
    ∀ m ∈ listMember name items, m.2.Whole := by
  rw [listMember_eq]
  apply whole_of_mem_member
  intro j hj
  split at hj
  · cases hj
  · cases hj
    exact ⟨rfl, h⟩

/-- The members of a node tell each of its parts. -/
theorem nodeMembers_inj {kind kind' : Json} {schema schema' : Option Json}
    {inputs inputs' outputs outputs' : Json} {constant constant' : Option Json}
    {regions regions' : List Json}
    (h : [("kind", kind)] ++ member "schema" schema ++ [("inputs", inputs), ("outputs", outputs)] ++
        member "constant" constant ++ listMember "regions" regions =
      [("kind", kind')] ++ member "schema" schema' ++
        [("inputs", inputs'), ("outputs", outputs')] ++ member "constant" constant' ++
        listMember "regions" regions') :
    kind = kind' ∧ schema = schema' ∧ inputs = inputs' ∧ outputs = outputs' ∧
      constant = constant' ∧ regions = regions' := by
  have hregions (items : List Json) :
      ∀ m ∈ listMember "regions" items ++ [], m.1 ≠ "constant" := by
    rw [List.append_nil]
    exact ne_of_mem_listMember (by decide)
  have hrest (inputs outputs : Json) (constant : Option Json) (regions : List Json) :
      ∀ m ∈ ("inputs", inputs) :: ("outputs", outputs) ::
        (member "constant" constant ++ (listMember "regions" regions ++ [])), m.1 ≠ "schema" := by
    have hinputs : "inputs" ≠ "schema" := by decide
    have houtputs : "outputs" ≠ "schema" := by decide
    rw [List.forall_mem_cons, List.forall_mem_cons, List.forall_mem_append, List.append_nil]
    exact ⟨hinputs, houtputs, ne_of_mem_member (by decide), ne_of_mem_listMember (by decide)⟩
  rw [← List.append_nil (listMember "regions" regions),
    ← List.append_nil (listMember "regions" regions')] at h
  simp only [List.append_assoc, List.cons_append, List.nil_append] at h
  obtain ⟨hkind, h⟩ := first_inj h
  obtain ⟨hschema, h⟩ := member_append_inj (hrest _ _ _ _) (hrest _ _ _ _) h
  obtain ⟨hinputs, h⟩ := first_inj h
  obtain ⟨houtputs, h⟩ := first_inj h
  obtain ⟨hconstant, h⟩ := member_append_inj (hregions _) (hregions _) h
  obtain ⟨hregions, _⟩ := listMember_append_inj (by simp) (by simp) h
  exact ⟨hkind, hschema, hinputs, houtputs, hconstant, hregions⟩

theorem regionMembers_inj {inputs inputs' outputs outputs' nodes nodes' : Json}
    {captures captures' : List Json}
    (h : [("inputs", inputs), ("outputs", outputs)] ++ listMember "captures" captures ++
        [("nodes", nodes)] =
      [("inputs", inputs'), ("outputs", outputs')] ++ listMember "captures" captures' ++
        [("nodes", nodes')]) :
    inputs = inputs' ∧ outputs = outputs' ∧ captures = captures' ∧ nodes = nodes' := by
  have hnodes (nodes : Json) : ∀ m ∈ [("nodes", nodes)], m.1 ≠ "captures" := by
    have hne : "nodes" ≠ "captures" := by decide
    exact List.forall_mem_singleton.mpr hne
  simp only [List.cons_append, List.nil_append] at h
  obtain ⟨hinputs, h⟩ := first_inj h
  obtain ⟨houtputs, h⟩ := first_inj h
  obtain ⟨hcaptures, h⟩ := listMember_append_inj (hnodes _) (hnodes _) h
  exact ⟨hinputs, houtputs, hcaptures, (first_inj h).1⟩

end Members

/-! ## Values and constants -/

theorem Value.json_injective : Function.Injective Value.json := by
  rintro ⟨id, shape, element, absent⟩ ⟨id', shape', element', absent'⟩ h
  obtain ⟨hid, hshape, helement, habsent⟩ : id.json = id'.json ∧ shape.json = shape'.json ∧
      element.json = element'.json ∧ ((if absent then [("none", Json.bool true)] else []) =
        if absent' then [("none", Json.bool true)] else []) := by
    simpa using object_inj h
  rw [Value.mk.injEq]
  refine ⟨?_, ?_, ?_, ?_⟩
  · exact ValueId.json_injective hid
  · exact eq_of_readsBack (fun s _ => Shape.readsBack s) trivial trivial hshape
  · exact eq_of_readsBack (fun e _ => Element.readsBack e) trivial trivial helement
  · cases absent <;> cases absent' <;> simp_all

theorem eq_of_map_json_eq {vs ws : List Value} (h : vs.map Value.json = ws.map Value.json) :
    vs = ws := List.map_injective_iff.mpr Value.json_injective h

theorem Constant.eq_of_json_eq {c d : Constant} (hc : ∀ s ∈ c.values, s.finite)
    (hd : ∀ s ∈ d.values, s.finite) (h : c.json = d.json) : c = d := by
  obtain ⟨element, shape, values⟩ := c
  obtain ⟨element', shape', values'⟩ := d
  obtain ⟨helement, hshape, hvalues⟩ : element.json = element'.json ∧
      array (shape.map Json.size) = array (shape'.map Json.size) ∧
      array (values.map Scalar.json) = array (values'.map Scalar.json) := by
    simpa using object_inj h
  rw [Constant.mk.injEq]
  refine ⟨?_, ?_, ?_⟩
  · exact eq_of_readsBack (fun e _ => Element.readsBack e) trivial trivial helement
  · apply eq_of_readsBack (fun sizes _ => readsBack_list fun n _ => readsBack_word n)
    · exact fun _ _ => trivial
    · exact fun _ _ => trivial
    · exact hshape
  · exact Scalar.eq_of_map_json_eq hc hd (array_inj hvalues)

/-! ## Nodes and regions -/

mutual

/-- The scalars of all constants in a node, those of its regions included. -/
def Node.scalars : Node → List Scalar
  | ⟨_, _, _, _, constant, regions⟩ => constant.elim [] Constant.values ++ scalarsInRegions regions

def scalarsInRegions : List Region → List Scalar
  | [] => []
  | r :: rest => r.scalars ++ scalarsInRegions rest

/-- The scalars of all constants in a region, at any depth. -/
def Region.scalars : Region → List Scalar
  | ⟨_, _, _, nodes⟩ => scalarsInNodes nodes

def scalarsInNodes : List Node → List Scalar
  | [] => []
  | n :: rest => n.scalars ++ scalarsInNodes rest

end

def Graph.scalars (g : Graph) : List Scalar := g.body.scalars

theorem eq_of_map_constant_json_eq {c d : Option Constant}
    (hc : ∀ s ∈ c.elim [] Constant.values, s.finite)
    (hd : ∀ s ∈ d.elim [] Constant.values, s.finite)
    (h : c.map Constant.json = d.map Constant.json) : c = d := by
  cases c with
  | none =>
      cases d with
      | none => rfl
      | some d => cases h
  | some c =>
      cases d with
      | none => cases h
      | some d => rw [Constant.eq_of_json_eq hc hd (Option.some.inj h)]

mutual

theorem Node.eq_of_json_eq : (n m : Node) → (∀ s ∈ n.scalars, s.finite) →
    (∀ s ∈ m.scalars, s.finite) → n.json = m.json → n = m
  | ⟨kind, schema, inputs, outputs, constant, regions⟩,
      ⟨kind', schema', inputs', outputs', constant', regions'⟩, hn, hm, h => by
      obtain ⟨hconstant, hregions⟩ := List.forall_mem_append.mp hn
      obtain ⟨hconstant', hregions'⟩ := List.forall_mem_append.mp hm
      obtain ⟨hkind, hschema, hinputs, houtputs, hc, hrs⟩ := nodeMembers_inj (object_inj h)
      rw [Node.mk.injEq]
      refine ⟨?_, ?_, ?_, ?_, ?_, ?_⟩
      · exact string_inj hkind
      · exact Option.map_injective (fun _ _ hs => string_inj hs) hschema
      · exact eq_of_map_json_eq (array_inj hinputs)
      · exact eq_of_map_json_eq (array_inj houtputs)
      · exact eq_of_map_constant_json_eq hconstant hconstant' hc
      · exact eq_of_regionsJson_eq regions regions' hregions hregions' hrs

theorem eq_of_regionsJson_eq : (rs qs : List Region) → (∀ s ∈ scalarsInRegions rs, s.finite) →
    (∀ s ∈ scalarsInRegions qs, s.finite) → regionsJson rs = regionsJson qs → rs = qs
  | [], [], _, _, _ => rfl
  | r :: rs, q :: qs, hr, hq, h => by
      obtain ⟨hr, hrs⟩ := List.forall_mem_append.mp hr
      obtain ⟨hq, hqs⟩ := List.forall_mem_append.mp hq
      obtain ⟨hhead, htail⟩ := List.cons.inj h
      rw [r.eq_of_members_eq q hr hq (object_inj hhead), eq_of_regionsJson_eq rs qs hrs hqs htail]

theorem Region.eq_of_members_eq : (r q : Region) → (∀ s ∈ r.scalars, s.finite) →
    (∀ s ∈ q.scalars, s.finite) → r.members = q.members → r = q
  | ⟨inputs, outputs, captures, nodes⟩, ⟨inputs', outputs', captures', nodes'⟩, hr, hq, h => by
      obtain ⟨hinputs, houtputs, hcaptures, hnodes⟩ := regionMembers_inj h
      rw [Region.mk.injEq]
      refine ⟨?_, ?_, ?_, ?_⟩
      · exact eq_of_map_json_eq (array_inj hinputs)
      · exact eq_of_map_json_eq (array_inj houtputs)
      · exact List.map_injective_iff.mpr ValueId.json_injective hcaptures
      · exact eq_of_nodesJson_eq nodes nodes' hr hq (array_inj hnodes)

theorem eq_of_nodesJson_eq : (ns ms : List Node) → (∀ s ∈ scalarsInNodes ns, s.finite) →
    (∀ s ∈ scalarsInNodes ms, s.finite) → nodesJson ns = nodesJson ms → ns = ms
  | [], [], _, _, _ => rfl
  | n :: ns, m :: ms, hn, hm, h => by
      obtain ⟨hn, hns⟩ := List.forall_mem_append.mp hn
      obtain ⟨hm, hms⟩ := List.forall_mem_append.mp hm
      obtain ⟨hhead, htail⟩ := List.cons.inj h
      rw [n.eq_of_json_eq m hn hm hhead, eq_of_nodesJson_eq ns ms hns hms htail]

end

theorem Graph.eq_of_json_eq {g h : Graph} (hg : ∀ s ∈ g.scalars, s.finite)
    (hh : ∀ s ∈ h.scalars, s.finite) (heq : g.json = h.json) : g = h := by
  obtain ⟨hkind, hbody⟩ := first_inj (object_inj heq)
  rw [Graph.mk.injEq]
  exact ⟨string_inj hkind, g.body.eq_of_members_eq h.body hg hh hbody⟩

/-! ## Texts -/

@[simp] theorem Value.whole_json (v : Value) : v.json.Whole := by
  have hshape : v.shape.json.Whole := by
    cases v.shape <;> simp [Shape.json]
  rw [json, whole_object, List.forall_mem_append]
  refine ⟨by simp [hshape], ?_⟩
  split
  · exact List.forall_mem_singleton.mpr trivial
  · exact nofun

@[simp] theorem Constant.whole_json (c : Constant) : c.json.Whole := by
  have hsize (n : UInt64) : (Json.size n).Whole := trivial
  simp [json, hsize]

theorem whole_values (vs : List Value) : (array (vs.map Value.json)).Whole := by
  rw [whole_array, List.forall_mem_map]
  exact fun v _ => v.whole_json

mutual

theorem Node.whole_json : (n : Node) → n.json.Whole
  | ⟨kind, schema, inputs, outputs, constant, regions⟩ => by
      have hschema : ∀ m ∈ member "schema" (schema.map Json.string), m.2.Whole := by
        apply whole_of_mem_member
        cases schema <;> simp
      have hconstant : ∀ m ∈ member "constant" (constant.map Constant.json), m.2.Whole := by
        apply whole_of_mem_member
        cases constant <;> simp
      rw [Node.json, whole_object, List.forall_mem_append, List.forall_mem_append,
        List.forall_mem_append, List.forall_mem_append, List.forall_mem_singleton,
        List.forall_mem_cons, List.forall_mem_singleton]
      exact ⟨⟨⟨⟨whole_string kind, hschema⟩, whole_values inputs, whole_values outputs⟩, hconstant⟩,
        whole_of_mem_listMember (whole_regionsJson regions)⟩

theorem whole_regionsJson : (rs : List Region) → WholeItems (regionsJson rs)
  | [] => trivial
  | r :: rest => ⟨whole_object.mpr r.whole_members, whole_regionsJson rest⟩

theorem Region.whole_members : (r : Region) → ∀ m ∈ r.members, m.2.Whole
  | ⟨inputs, outputs, captures, nodes⟩ => by
      have hcaptures : WholeItems (captures.map ValueId.json) := by
        rw [wholeItems_iff, List.forall_mem_map]
        exact fun id _ => id.whole_json
      have hnodes : (array (nodesJson nodes)).Whole := ⟨rfl, whole_nodesJson nodes⟩
      rw [Region.members, List.forall_mem_append, List.forall_mem_append, List.forall_mem_cons,
        List.forall_mem_singleton, List.forall_mem_singleton]
      exact ⟨⟨⟨whole_values inputs, whole_values outputs⟩, whole_of_mem_listMember hcaptures⟩,
        hnodes⟩

theorem whole_nodesJson : (ns : List Node) → WholeItems (nodesJson ns)
  | [] => trivial
  | n :: rest => ⟨n.whole_json, whole_nodesJson rest⟩

end

theorem Graph.whole_json (g : Graph) : g.json.Whole := by
  rw [json, whole_object, List.forall_mem_cons]
  exact ⟨whole_string g.kind, g.body.whole_members⟩

/-- What is printed for a graph tells the graph.  Floats that are not finite are all printed as
`null`, so that there must be none. -/
theorem Graph.eq_of_pretty_eq {g h : Graph} (hg : ∀ s ∈ g.scalars, s.finite)
    (hh : ∀ s ∈ h.scalars, s.finite) (htext : g.json.pretty = h.json.pretty) : g = h := by
  apply Graph.eq_of_json_eq hg hh
  apply eq_of_write_eq Layout.pretty_blank g.whole_json h.whole_json
  exact String.ofList_inj.mp htext

/-- A loop whose block makes a zero of either sign and passes a value from outside on. -/
def looping (negative : Bool) : View :=
  let zero : OpGraph.Value :=
    { id := ⟨1⟩, type := .tensor (some "double") (some [some 1])
      literal := .tensor [.float (.ofCode negative 0)] }
  let outside : OpGraph.Value := { id := ⟨0⟩, type := .absent }
  let block : OpGraph.Node :=
    { kind := Kind.block, outputs := [zero, outside]
      body := some [{ kind := Kind.constant, outputs := [zero] }] }
  ⟨{ kind := Kind.graph, inputs := [outside]
     body := some [{ kind := "prim::Loop", schema := some "loop", blocks := [block] }] },
    TypeNames.standard.add "double" .f64⟩

/-- The same loop as it is decoded. -/
def loop (negative : Bool) : Graph :=
  let zero : Value := ⟨⟨1⟩, .ranked [some 1], .f64, false⟩
  let outside : Value := ⟨⟨0⟩, .dynamic, .dynamic, true⟩
  let constant : Constant := ⟨.f64, [1], [.float (.ofCode negative 0)]⟩
  let made : Node := ⟨Kind.constant, none, [], [zero], some constant, []⟩
  let region : Region := ⟨[], [zero, outside], [⟨0⟩], [made]⟩
  ⟨Kind.graph, [outside], [], [], [⟨"prim::Loop", some "loop", [], [], none, [region]⟩]⟩

theorem Graph.eq_of_pretty_eq_loop :
    ∃ g, (looping true).decode = .ok g ∧ g.json.pretty = (loop true).json.pretty ∧
      (∀ s ∈ g.scalars, s.finite) ∧ (∀ s ∈ (loop true).scalars, s.finite) ∧ g = loop true ∧
      (loop false).json.pretty ≠ (loop true).json.pretty := by
  have hdecode : (looping true).decode =
      .ok ⟨Kind.graph, (looping true).node.describedBlock (looping true).names⟩ := by
    rw [View.decode_of_regions (show (looping true).node.regions = [(looping true).node] from rfl)]
    rfl
  have hfinite (negative : Bool) : ∀ s ∈ (loop negative).scalars, s.finite := by
    cases negative <;> decide
  refine ⟨_, hdecode, rfl, hfinite true, hfinite true, ?_, ?_⟩
  · exact eq_of_pretty_eq (hfinite true) (hfinite true) rfl
  · intro htext
    have hsigns := congrArg scalars (eq_of_pretty_eq (hfinite false) (hfinite true) htext)
    exact absurd hsigns (by decide)

end Decoded

end OpGraph
