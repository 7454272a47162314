import Mathlib.Data.List.Nodup
import Mathlib.Data.List.ReduceOption
import OpGraph.Draft
import OpGraph.Proofs.Defects
import OpGraph.Proofs.Erasure

/-!
# What a draft is made of

A draft numbers its values in the order in which they are made, for the number it keeps is that of
the values before, and it holds what its steps asked for and nothing else.  It becomes a graph
unless a step mentioned a value that no step made.
-/

namespace OpGraph

namespace Dump

theorem referencesInNodes_eq (ns : List Node) :
    referencesInNodes ns = ns.flatMap Node.references := by
  induction ns with
  | nil => rfl
  | cons n ns ih => rw [referencesInNodes, List.flatMap_cons, ih]

theorem mem_references_iff {d : Dump} {r : Reference} :
    r ∈ d.references ↔ (∃ id ∈ d.inputs, ⟨Kind.graph, id⟩ = r) ∨
      (∃ id ∈ d.outputs, ⟨Kind.graph, id⟩ = r) ∨ ∃ n ∈ d.nodes, r ∈ n.references := by
  rw [references, List.mem_append, List.mem_append, List.mem_map, List.mem_map,
    referencesInNodes_eq, List.mem_flatMap]

theorem references_constant (id : ValueId) :
    (Node.constant id).references = [⟨Kind.constant, id⟩] := rfl

end Dump

namespace Draft

/-! ## What a step asks for -/

namespace Step

/-- The type and the literal of the value that a step makes. -/
def made : Step → Option (ValueType × Option Literal)
  | .value type => some (type, none)
  | .literal type l => some (type, some l)
  | .absent => some (.absent, none)
  | .input type => some (type, none)
  | .constant type l => some (type, some l)
  | .node _ => none
  | .output _ => none

/-- The parameter that a step adds, if it gave this identity. -/
def inputs (id : Option ValueId) : Step → List ValueId
  | .input _ => id.toList
  | _ => []

def outputs : Step → List ValueId
  | .output id => [id]
  | _ => []

/-- The node that a step appends, if it gave this identity. -/
def nodes (id : Option ValueId) : Step → List Dump.Node
  | .constant _ _ => id.toList.map .constant
  | .node n => [n]
  | _ => []

/-- The values that a step is told of, those in the blocks of a node included. -/
def mentions : Step → List ValueId
  | .output id => [id]
  | .node n => n.references.map Dump.Reference.id
  | _ => []

variable {s : Step} {given : Option ValueId} {id : ValueId}

theorem given_of_mem_inputs (h : id ∈ s.inputs given) : given = some id := by
  cases s with
  | input => exact Option.mem_toList.mp h
  | _ => cases h

theorem mem_mentions_of_mem_outputs (h : id ∈ s.outputs) : id ∈ s.mentions := by
  cases s with
  | output => exact h
  | _ => cases h

/-- A node refers to what its step is told of, or to the value that was made with it. -/
theorem mentioned_or_given {n : Dump.Node} (hn : n ∈ s.nodes given) {r : Dump.Reference}
    (hr : r ∈ n.references) : r.id ∈ s.mentions ∨ given = some r.id := by
  cases s with
  | constant =>
      obtain ⟨id, hid, rfl⟩ := List.mem_map.mp hn
      rw [Dump.references_constant, List.mem_singleton] at hr
      exact .inr (hr ▸ Option.mem_toList.mp hid)
  | node =>
      obtain rfl := List.mem_singleton.mp hn
      exact .inl (List.mem_map_of_mem hr)
  | _ => cases hn

end Step

/-- The types and the literals of all values that are made. -/
def made (steps : List Step) : List (ValueType × Option Literal) := steps.filterMap Step.made

def mentions (steps : List Step) : List ValueId := steps.flatMap Step.mentions

/-- A draft made by some steps that gave these identities. -/
structure MadeBy (steps : List Step) (d : Draft) (ids : List (Option ValueId)) : Prop where
  /-- The number of the next value is that of the values before it. -/
  next : d.nextNumber = .ofNat (made steps).length
  /-- A step gives an identity when it makes a value. -/
  gives : ids.map Option.isSome = steps.map fun s => s.made.isSome
  identities : ids.reduceOption = (List.range (made steps).length).map fun k => ⟨.ofNat k⟩
  values : d.dump.values =
    (made steps).mapIdx fun k (type, literal) => ⟨⟨.ofNat k⟩, type, literal⟩
  inputs : d.dump.inputs = (steps.zip ids).flatMap fun (s, id) => s.inputs id
  outputs : d.dump.outputs = steps.flatMap Step.outputs
  nodes : d.dump.nodes = (steps.zip ids).flatMap fun (s, id) => s.nodes id

/-! ## One step -/

theorem step_eq (d : Draft) (s : Step) :
    let id := s.made.map fun _ => d.next
    d.step s =
      ({ dump :=
          { values := d.dump.values ++ s.made.toList.map fun (type, literal) =>
              ⟨d.next, type, literal⟩
            inputs := d.dump.inputs ++ s.inputs id
            outputs := d.dump.outputs ++ s.outputs
            nodes := d.dump.nodes ++ s.nodes id }
         nextNumber := d.nextNumber + .ofNat s.made.toList.length }, id) := by
  cases s <;>
    simp [step, addValue, addInput, addOutput, addNode, Step.made, Step.inputs, Step.outputs,
      Step.nodes]

theorem made_concat (steps : List Step) (s : Step) :
    made (steps ++ [s]) = made steps ++ s.made.toList := by
  rw [made, List.filterMap_append]
  cases h : s.made <;> simp [made, h]

namespace MadeBy

variable {steps : List Step} {d : Draft} {ids : List (Option ValueId)}

theorem length_eq (h : MadeBy steps d ids) : steps.length = ids.length := by
  simpa using (congrArg List.length h.gives).symm

theorem next_eq (h : MadeBy steps d ids) : d.next = ⟨.ofNat (made steps).length⟩ :=
  congrArg ValueId.mk h.next

theorem empty : MadeBy [] .empty [] := ⟨rfl, rfl, rfl, rfl, rfl, rfl, rfl⟩

theorem step (h : MadeBy steps d ids) (s : Step) :
    MadeBy (steps ++ [s]) (d.step s).1 (ids ++ [(d.step s).2]) := by
  have hzip (id : Option ValueId) :
      (steps ++ [s]).zip (ids ++ [id]) = steps.zip ids ++ [(s, id)] :=
    List.zip_append h.length_eq
  rw [step_eq, h.next_eq]
  constructor
  case next =>
    rw [h.next, made_concat, List.length_append, UInt64.ofNat_add]
  case gives =>
    rw [List.map_append, List.map_append, h.gives]
    simp
  case identities =>
    rw [List.reduceOption_append, h.identities, made_concat]
    cases s.made <;> simp [List.range_succ]
  case values =>
    rw [h.values, made_concat, List.mapIdx_append]
    cases s.made <;> simp
  case inputs =>
    rw [hzip, List.flatMap_append, h.inputs]
    simp
  case outputs =>
    rw [List.flatMap_append, h.outputs]
    simp
  case nodes =>
    rw [hzip, List.flatMap_append, h.nodes]
    simp

/-- Further steps keep what a draft is made of. -/
theorem run (h : MadeBy steps d ids) (more : List Step) :
    MadeBy (steps ++ more) (d.run more).1 (ids ++ (d.run more).2) := by
  induction more generalizing steps d ids with
  | nil => simpa [Draft.run] using h
  | cons s more ih => simpa [Draft.run] using ih (h.step s)

/-! ## References -/

theorem defined_eq (h : MadeBy steps d ids) : d.dump.defined = ids.reduceOption := by
  rw [h.identities, Dump.defined, h.values]
  apply List.ext_getElem
  · simp
  · simp

theorem mem_defined_iff (h : MadeBy steps d ids) (hsize : (made steps).length ≤ UInt64.size)
    {id : ValueId} : id ∈ d.dump.defined ↔ id.number.toNat < (made steps).length := by
  rw [h.defined_eq, h.identities, List.mem_map]
  constructor
  · rintro ⟨k, hk, rfl⟩
    have hk := List.mem_range.mp hk
    rwa [UInt64.toNat_ofNat_of_lt' (Nat.lt_of_lt_of_le hk hsize)]
  · intro hid
    exact ⟨id.number.toNat, List.mem_range.mpr hid, by simp⟩

theorem nodup_defined (h : MadeBy steps d ids) (hsize : (made steps).length ≤ UInt64.size) :
    d.dump.defined.Nodup := by
  rw [h.defined_eq, h.identities]
  refine List.Nodup.map_on ?_ List.nodup_range
  intro k hk l hl heq
  have hk := Nat.lt_of_lt_of_le (List.mem_range.mp hk) hsize
  have hl := Nat.lt_of_lt_of_le (List.mem_range.mp hl) hsize
  have hnat := congrArg (fun id : ValueId => id.number.toNat) heq
  simpa [UInt64.toNat_ofNat_of_lt' hk, UInt64.toNat_ofNat_of_lt' hl] using hnat

theorem exists_reference (h : MadeBy steps d ids) {id : ValueId} (hid : id ∈ mentions steps) :
    ∃ r ∈ d.dump.references, r.id = id := by
  obtain ⟨s, hs, hid⟩ := List.mem_flatMap.mp hid
  cases s with
  | output =>
      obtain rfl := List.mem_singleton.mp hid
      have houtput : id ∈ d.dump.outputs := by
        rw [h.outputs, List.mem_flatMap]
        exact ⟨_, hs, List.mem_singleton_self _⟩
      exact ⟨_, Dump.mem_references_iff.mpr (.inr (.inl ⟨id, houtput, rfl⟩)), rfl⟩
  | node n =>
      obtain ⟨r, hr, rfl⟩ := List.mem_map.mp hid
      rw [← List.map_fst_zip (Nat.le_of_eq h.length_eq)] at hs
      obtain ⟨⟨_, given⟩, hzip, rfl⟩ := List.mem_map.mp hs
      have hn : n ∈ d.dump.nodes := by
        rw [h.nodes, List.mem_flatMap]
        exact ⟨_, hzip, List.mem_singleton_self _⟩
      exact ⟨r, Dump.mem_references_iff.mpr (.inr (.inr ⟨n, hn, hr⟩)), rfl⟩
  | _ => cases hid

/-- What no step mentioned is referred to only if a step gave it. -/
theorem mentioned_or_defined (h : MadeBy steps d ids) {r : Dump.Reference}
    (hr : r ∈ d.dump.references) : r.id ∈ mentions steps ∨ r.id ∈ d.dump.defined := by
  have hgiven {s : Step} (hzip : (s, some r.id) ∈ steps.zip ids) : r.id ∈ d.dump.defined := by
    rw [h.defined_eq, List.reduceOption_mem_iff]
    exact (List.of_mem_zip hzip).2
  rcases Dump.mem_references_iff.mp hr with ⟨id, hid, rfl⟩ | ⟨id, hid, rfl⟩ | ⟨n, hn, hr⟩
  · rw [h.inputs] at hid
    obtain ⟨⟨s, given⟩, hzip, hid⟩ := List.mem_flatMap.mp hid
    obtain rfl := Step.given_of_mem_inputs hid
    exact .inr (hgiven hzip)
  · rw [h.outputs] at hid
    obtain ⟨s, hs, hid⟩ := List.mem_flatMap.mp hid
    exact .inl (List.mem_flatMap.mpr ⟨s, hs, Step.mem_mentions_of_mem_outputs hid⟩)
  · rw [h.nodes] at hn
    obtain ⟨⟨s, given⟩, hzip, hn⟩ := List.mem_flatMap.mp hn
    rcases Step.mentioned_or_given hn hr with hid | rfl
    · exact .inl (List.mem_flatMap.mpr ⟨s, (List.of_mem_zip hzip).1, hid⟩)
    · exact .inr (hgiven hzip)

/-! ## Building -/

theorem exists_check_eq_ok_iff (h : MadeBy steps d ids)
    (hsize : (made steps).length ≤ UInt64.size) :
    (∃ index, d.dump.check = .ok index) ↔
      ∀ id ∈ mentions steps, id.number.toNat < (made steps).length := by
  rw [Dump.exists_check_eq_ok_iff]
  constructor
  · rintro ⟨_, hdefined⟩ id hid
    obtain ⟨r, hr, rfl⟩ := h.exists_reference hid
    exact (h.mem_defined_iff hsize).mp (hdefined r hr)
  · intro hmade
    refine ⟨h.nodup_defined hsize, fun r hr => ?_⟩
    rcases h.mentioned_or_defined hr with hid | hid
    · exact (h.mem_defined_iff hsize).mpr (hmade _ hid)
    · exact hid

/-- A check that fails tells of a value that was mentioned and never made. -/
theorem unknownValue_of_check_eq_error (h : MadeBy steps d ids)
    (hsize : (made steps).length ≤ UInt64.size) {e : Dump.Defect} (he : d.dump.check = .error e) :
    ∃ owner, ∃ id ∈ mentions steps, (made steps).length ≤ id.number.toNat ∧
      e = .unknownValue owner id := by
  rcases Dump.check_eq_error_iff.mp he with
    ⟨before, id, after, hsplit, _, hid, _⟩ | ⟨_, before, r, after, hsplit, _, hmissing, rfl⟩
  · have hnodup := h.nodup_defined hsize
    rw [hsplit] at hnodup
    exact absurd rfl ((List.nodup_append.mp hnodup).2.2 id hid id List.mem_cons_self)
  · have hr : r ∈ d.dump.references := by
      rw [hsplit]
      exact List.mem_append_right _ List.mem_cons_self
    have hid := (h.mentioned_or_defined hr).resolve_right hmissing
    exact ⟨r.owner, r.id, hid, Nat.le_of_not_lt fun hlt => hmissing
      ((h.mem_defined_iff hsize).mpr hlt), rfl⟩

end MadeBy

theorem exists_build_eq_ok_iff {d : Draft} :
    (∃ g, d.build = .ok g ∧ g.dump = d.dump) ↔ ∃ index, d.dump.check = .ok index := by
  rw [← Graph.exists_ofDump_eq_ok_iff]
  constructor
  · rintro ⟨g, hg, _⟩
    exact ⟨g, hg⟩
  · rintro ⟨g, hg⟩
    exact ⟨g, hg, Graph.dump_of_ofDump_eq_ok hg⟩

/-- Steps from an empty draft number their values from zero on and fill the draft in their order.
With no more values than there are words, which identities are, the draft becomes a graph exactly
when every value that is mentioned was made, whichever came first, and all that can be wrong with
it is a value that was not. -/
theorem madeBy_run_empty (steps : List Step) :
    MadeBy steps (empty.run steps).1 (empty.run steps).2 ∧
      ((made steps).length ≤ UInt64.size →
        (∀ id, (empty.run steps).1.build ≠ .error (.duplicateValue id)) ∧
        ((∃ g, (empty.run steps).1.build = .ok g ∧ g.dump = (empty.run steps).1.dump) ↔
          ∀ id ∈ mentions steps, id.number.toNat < (made steps).length) ∧
        ((∃ id ∈ mentions steps, (made steps).length ≤ id.number.toNat) →
          ∃ owner, ∃ id ∈ mentions steps, (made steps).length ≤ id.number.toNat ∧
            (empty.run steps).1.build = .error (.unknownValue owner id))) := by
  have h : MadeBy steps (empty.run steps).1 (empty.run steps).2 := MadeBy.empty.run steps
  refine ⟨h, fun hsize => ⟨fun id hid => ?_, ?_, ?_⟩⟩
  · obtain ⟨_, _, _, _, he⟩ :=
      h.unknownValue_of_check_eq_error hsize (Graph.ofDump_eq_error_iff.mp hid)
    cases he
  · rw [exists_build_eq_ok_iff, h.exists_check_eq_ok_iff hsize]
  · rintro ⟨id, hid, hmissing⟩
    cases hcheck : (empty.run steps).1.dump.check with
    | ok index =>
        have hmade := (h.exists_check_eq_ok_iff hsize).mp ⟨index, hcheck⟩ id hid
        exact absurd hmissing (Nat.not_le_of_lt hmade)
    | error e =>
        obtain ⟨owner, id, hid, hmissing, rfl⟩ := h.unknownValue_of_check_eq_error hsize hcheck
        exact ⟨owner, id, hid, hmissing, Graph.ofDump_eq_error_iff.mpr hcheck⟩

/-- A loop is added before two of the values that it mentions are made. -/
def looping : List Step :=
  let made : Dump.Node := { kind := "aten::add", inputs := [⟨0⟩, ⟨1⟩], outputs := [⟨2⟩] }
  let block : Dump.Block := { outputs := [⟨2⟩], nodes := [made] }
  [.input .unknownTensor, .node { kind := "prim::Loop", blocks := [block] },
    .constant (.scalar "int") (.scalar (.int 3)), .value .unknownTensor, .absent, .output ⟨2⟩]

theorem madeBy_run_empty_looping :
    MadeBy looping (empty.run looping).1 (empty.run looping).2 ∧
      (empty.run looping).2 = [some ⟨0⟩, none, some ⟨1⟩, some ⟨2⟩, some ⟨3⟩, none] ∧
      (∀ id, (empty.run looping).1.build ≠ .error (.duplicateValue id)) ∧
      (∀ id ∈ mentions looping, id.number.toNat < (made looping).length) ∧
      (∃ g, (empty.run looping).1.build = .ok g ∧ g.dump = (empty.run looping).1.dump) ∧
      ∃ owner, (empty.run (.output ⟨4⟩ :: looping)).1.build = .error (.unknownValue owner ⟨4⟩) := by
  have hmade : ∀ id ∈ mentions looping, id.number.toNat < (made looping).length := by decide
  obtain ⟨hmadeBy, hbuild⟩ := madeBy_run_empty looping
  obtain ⟨hdistinct, hok, _⟩ := hbuild (by decide)
  obtain ⟨_, _, herror⟩ := (madeBy_run_empty (.output ⟨4⟩ :: looping)).2 (by decide)
  refine ⟨hmadeBy, rfl, hdistinct, hmade, hok.mpr hmade, ?_⟩
  obtain ⟨owner, id, hid, hmissing, he⟩ := herror ⟨⟨4⟩, by decide, by decide⟩
  have hfour : ∀ id ∈ mentions (.output ⟨4⟩ :: looping),
      (made (.output ⟨4⟩ :: looping)).length ≤ id.number.toNat → id = ⟨4⟩ := by
    decide
  exact ⟨owner, hfour id hid hmissing ▸ he⟩

end Draft

end OpGraph
