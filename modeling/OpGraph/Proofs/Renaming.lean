import Mathlib.Data.List.Basic
import OpGraph.Proofs.Walk

/-!
# Renaming what is decoded

Decoding compares identities and does nothing else with them.  Under an injective renaming a graph
is therefore decoded to the renamed result, with captures in the same order, or refused with the
renamed fault at the same place.
-/

namespace OpGraph

/-! ## Renamed nodes -/

def Value.rename (f : ValueId → ValueId) (v : Value) : Value := { v with id := f v.id }

mutual

def Node.rename (f : ValueId → ValueId) : Node → Node
  | .mk kind schema inputs outputs blocks body =>
      .mk kind schema (inputs.map (Value.rename f)) (outputs.map (Value.rename f))
        (renameNodes f blocks)
        (match body with
        | some contents => some (renameNodes f contents)
        | none => none)

def renameNodes (f : ValueId → ValueId) : List Node → List Node
  | [] => []
  | n :: rest => n.rename f :: renameNodes f rest

end

theorem renameNodes_eq_map (f : ValueId → ValueId) (ns : List Node) :
    renameNodes f ns = ns.map (Node.rename f) := by
  induction ns with
  | nil => rfl
  | cons n ns ih => exact congrArg (n.rename f :: ·) ih

namespace Node

variable (f : ValueId → ValueId) (n : Node)

@[simp] theorem kind_rename : (n.rename f).kind = n.kind := by
  cases n
  rfl

@[simp] theorem schema_rename : (n.rename f).schema = n.schema := by
  cases n
  rfl

@[simp] theorem inputs_rename : (n.rename f).inputs = n.inputs.map (Value.rename f) := by
  cases n
  rfl

@[simp] theorem outputs_rename : (n.rename f).outputs = n.outputs.map (Value.rename f) := by
  cases n
  rfl

@[simp] theorem contents_rename : (n.rename f).contents = n.contents.map (rename f) := by
  obtain ⟨kind, schema, inputs, outputs, blocks, body⟩ := n
  cases body with
  | none => rfl
  | some contents => exact renameNodes_eq_map f contents

@[simp] theorem regions_rename : (n.rename f).regions = n.regions.map (rename f) := by
  obtain ⟨kind, schema, inputs, outputs, blocks, body⟩ := n
  cases body with
  | none => exact renameNodes_eq_map f blocks
  | some contents => rfl

@[simp] theorem constant_rename (names : TypeNames) :
    (n.rename f).constant names = n.constant names := by
  rw [constant, constant, kind_rename, outputs_rename]
  cases n.outputs <;> rfl

end Node

@[simp] theorem map_id_map_rename (f : ValueId → ValueId) (vs : List Value) :
    (vs.map (Value.rename f)).map Value.id = (vs.map Value.id).map f := by
  simp only [List.map_map]
  rfl

/-! ## Renamed results -/

namespace Decoded

def Value.rename (f : ValueId → ValueId) (v : Value) : Value := { v with id := f v.id }

mutual

def Node.rename (f : ValueId → ValueId) : Node → Node
  | ⟨kind, schema, inputs, outputs, constant, regions⟩ =>
      ⟨kind, schema, inputs.map (Value.rename f), outputs.map (Value.rename f), constant,
        renameRegions f regions⟩

def renameRegions (f : ValueId → ValueId) : List Region → List Region
  | [] => []
  | r :: rest => r.rename f :: renameRegions f rest

def Region.rename (f : ValueId → ValueId) : Region → Region
  | ⟨inputs, outputs, captures, nodes⟩ =>
      ⟨inputs.map (Value.rename f), outputs.map (Value.rename f), captures.map f,
        renameNodes f nodes⟩

def renameNodes (f : ValueId → ValueId) : List Node → List Node
  | [] => []
  | n :: rest => n.rename f :: renameNodes f rest

end

def Graph.rename (f : ValueId → ValueId) (g : Graph) : Graph := ⟨g.kind, g.body.rename f⟩

theorem renameRegions_eq_map (f : ValueId → ValueId) (rs : List Region) :
    renameRegions f rs = rs.map (Region.rename f) := by
  induction rs with
  | nil => rfl
  | cons r rs ih => exact congrArg (r.rename f :: ·) ih

theorem renameNodes_eq_map (f : ValueId → ValueId) (ns : List Node) :
    renameNodes f ns = ns.map (Node.rename f) := by
  induction ns with
  | nil => rfl
  | cons n ns ih => exact congrArg (n.rename f :: ·) ih

section

variable (f : ValueId → ValueId)

@[simp] theorem ids_map_rename (vs : List Value) :
    ids (vs.map (Value.rename f)) = (ids vs).map f := by
  simp only [ids, List.map_map]
  rfl

@[simp] theorem Region.captures_rename (r : Region) : (r.rename f).captures = r.captures.map f := by
  cases r
  rfl

@[simp] theorem Node.outputs_rename (n : Node) :
    (n.rename f).outputs = n.outputs.map (Value.rename f) := by
  cases n
  rfl

@[simp] theorem Node.uses_rename (n : Node) : (n.rename f).uses = n.uses.map f := by
  obtain ⟨kind, schema, inputs, outputs, constant, regions⟩ := n
  simp only [Node.uses, Node.rename, renameRegions_eq_map, ids_map_rename, List.map_append,
    List.flatMap_map, List.map_flatMap, Region.captures_rename]

end

end Decoded

namespace Fault

def rename (f : ValueId → ValueId) : Fault → Fault
  | .duplicateProducer kind value => .duplicateProducer kind (f value)
  | .inRegion kind region position source => .inRegion kind region position (source.rename f)
  | e => e

@[simp] theorem path_rename (f : ValueId → ValueId) (e : Fault) : (e.rename f).path = e.path := by
  induction e with
  | inRegion kind region position source ih => exact congrArg (_ :: ·) ih
  | _ => rfl

end Fault

/-! ## Productions -/

namespace Production

variable (f : ValueId → ValueId)

def rename (p : Production) : Production := { p with value := f p.value }

@[simp] theorem map_rename_ofIds (kind : String) (ids : List ValueId) :
    (ofIds kind ids).map (rename f) = ofIds kind (ids.map f) := by
  simp only [ofIds, List.map_map]
  rfl

@[simp] theorem fault_rename (p : Production) : (p.rename f).fault = p.fault.rename f := by
  obtain ⟨path, kind, value⟩ := p
  induction path with
  | nil => rfl
  | cons s path ih => exact congrArg (Fault.within s) ih

end Production

section Productions

variable {f : ValueId → ValueId}

theorem contentsProductions_rename {ns : List Node} (owner : String) (region position : Nat)
    (h : ∀ n ∈ ns, (n.rename f).productions = n.productions.map (Production.rename f)) :
    contentsProductions owner region position (ns.map (Node.rename f)) =
      (contentsProductions owner region position ns).map (Production.rename f) := by
  induction ns generalizing position with
  | nil => rfl
  | cons n ns ih =>
      have hrest := ih (position + 1) fun m hm => h m (List.mem_cons_of_mem _ hm)
      rw [List.map_cons, contentsProductions_cons, contentsProductions_cons, hrest,
        h n List.mem_cons_self, List.map_append, List.map_map, List.map_map]
      rfl

theorem blocksProductions_rename {bs : List Node} (owner : String) (region : Nat)
    (h : ∀ b ∈ bs, ∀ region, (b.rename f).blockProductions owner region =
      (b.blockProductions owner region).map (Production.rename f)) :
    blocksProductions owner region (bs.map (Node.rename f)) =
      (blocksProductions owner region bs).map (Production.rename f) := by
  induction bs generalizing region with
  | nil => rfl
  | cons b bs ih =>
      have hrest := ih (region + 1) fun c hc => h c (List.mem_cons_of_mem _ hc)
      rw [List.map_cons, blocksProductions, blocksProductions, hrest, h b List.mem_cons_self,
        List.map_append]

theorem Node.blockProductions_rename (b : Node) (owner : String) (region : Nat) :
    (b.rename f).blockProductions owner region =
      (b.blockProductions owner region).map (Production.rename f) := by
  induction b using block_induction generalizing owner region with
  | step b ih =>
      have hcontents (n : Node) (hn : n ∈ b.contents) :
          (n.rename f).productions = n.productions.map (Production.rename f) := by
        have hregions := blocksProductions_rename n.kind 0 fun c hc => ih n hn c hc n.kind
        simp only [productions, innerProductions_eq, kind_rename, regions_rename, outputs_rename,
          hregions, map_id_map_rename, List.map_append, Production.map_rename_ofIds]
      simp only [blockProductions_eq, kind_rename, inputs_rename, contents_rename,
        map_id_map_rename, contentsProductions_rename owner region 0 hcontents, List.map_append,
        Production.map_rename_ofIds]

/-- Recording stops at the same production. -/
theorem recordAll_rename (hf : Function.Injective f) (ps : List Production)
    (produced : List ValueId) :
    recordAll (ps.map (Production.rename f)) (produced.map f) =
      ((recordAll ps produced).map (List.map f)).mapError (Fault.rename f) := by
  induction ps generalizing produced with
  | nil => rfl
  | cons p ps ih =>
      have hp : (p.rename f).value ∈ produced.map f ↔ p.value ∈ produced :=
        List.mem_map_of_injective hf
      simp only [List.map_cons, recordAll, hp]
      split
      · rw [Production.fault_rename]
        rfl
      · exact ih (p.value :: produced)

end Productions

/-! ## Descriptions -/

namespace Decoded

variable {f : ValueId → ValueId}

theorem addCaptures_rename (hf : Function.Injective f) (locals captures ids : List ValueId) :
    addCaptures (locals.map f) (captures.map f) (ids.map f) =
      (addCaptures locals captures ids).map f := by
  induction ids generalizing captures with
  | nil => rfl
  | cons id ids ih =>
      simp only [List.map_cons, addCaptures, List.mem_map_of_injective hf]
      split
      · exact ih captures
      · rw [← ih, List.map_append]
        rfl

theorem capturesFrom_rename (hf : Function.Injective f) (results locals captures : List ValueId)
    (ns : List Node) :
    capturesFrom (results.map f) (locals.map f) (captures.map f) (ns.map (Node.rename f)) =
      (capturesFrom results locals captures ns).map f := by
  induction ns generalizing locals captures with
  | nil => exact addCaptures_rename hf locals captures results
  | cons n ns ih =>
      rw [List.map_cons, capturesFrom, capturesFrom, ← ih, Node.uses_rename, Node.outputs_rename,
        ids_map_rename, addCaptures_rename hf, List.map_append, List.map_reverse]

theorem Region.rename_of (hf : Function.Injective f) (inputs outputs : List Value)
    (ns : List Node) :
    (Region.of inputs outputs ns).rename f =
      .of (inputs.map (Value.rename f)) (outputs.map (Value.rename f))
        (ns.map (Node.rename f)) := by
  have hcaptures := capturesFrom_rename hf (ids outputs) (ids inputs) [] ns
  simp only [Region.of, Region.rename, renameNodes_eq_map, ids_map_rename, ← hcaptures,
    List.map_nil]

end Decoded

namespace Node

variable {f : ValueId → ValueId} {names : TypeNames}

theorem described_rename_of_regions {n : Node}
    (h : ∀ b ∈ n.regions, (b.rename f).describedBlock names = (b.describedBlock names).rename f) :
    (n.rename f).described names = (n.described names).rename f := by
  have hregions : (n.regions.map (rename f)).map (describedBlock names) =
      (n.regions.map (describedBlock names)).map (Decoded.Region.rename f) := by
    rw [List.map_map, List.map_map]
    exact List.map_congr_left h
  simp only [described_eq, kind_rename, schema_rename, inputs_rename, outputs_rename,
    constant_rename, regions_rename, hregions, Decoded.Node.rename, Decoded.renameRegions_eq_map,
    List.map_map]
  rfl

theorem describedBlock_rename (hf : Function.Injective f) (b : Node) :
    (b.rename f).describedBlock names = (b.describedBlock names).rename f := by
  induction b using block_induction with
  | step b ih =>
      have hcontents : (b.contents.map (rename f)).map (described names) =
          (b.contents.map (described names)).map (Decoded.Node.rename f) := by
        rw [List.map_map, List.map_map]
        exact List.map_congr_left fun n hn => described_rename_of_regions (ih n hn)
      rw [describedBlock_eq, describedBlock_eq, Decoded.Region.rename_of hf, contents_rename,
        hcontents, inputs_rename, outputs_rename]
      simp only [List.map_map]
      rfl

end Node

/-! ## Decoding -/

namespace View

variable {f : ValueId → ValueId}

theorem decode_rename (hf : Function.Injective f) (n : Node) (names : TypeNames) :
    (⟨n.rename f, names⟩ : View).decode =
      ((⟨n, names⟩ : View).decode.map (Decoded.Graph.rename f)).mapError (Fault.rename f) := by
  have hcount : (⟨n.rename f, names⟩ : View).regionCount = (⟨n, names⟩ : View).regionCount := by
    simp only [regionCount_eq, Node.regions_rename, List.length_map]
  have hkind : (⟨n.rename f, names⟩ : View).kind = n.kind := n.kind_rename f
  by_cases h : (⟨n, names⟩ : View).regionCount = 1
  · obtain ⟨b, hb⟩ := exists_regions_of_regionCount_eq_one h
    have hb' : (n.rename f).regions = [b.rename f] := by rw [Node.regions_rename, hb]; rfl
    have hproductions : (⟨n.rename f, names⟩ : View).productions 0 =
        ((⟨n, names⟩ : View).productions 0).map (Production.rename f) := by
      rw [productions_eq (by rw [hb']; rfl), productions_eq (by rw [hb]; rfl), hkind]
      exact b.blockProductions_rename n.kind 0
    have hrecord := recordAll_rename hf ((⟨n, names⟩ : View).productions 0) []
    rw [decode_of_regions hb, decode_of_regions hb', hproductions, hkind]
    rw [List.map_nil] at hrecord
    rw [hrecord, b.describedBlock_rename hf]
    cases recordAll ((⟨n, names⟩ : View).productions 0) [] <;> rfl
  · rw [decode, decode, if_neg h, if_neg (hcount ▸ h), hcount, hkind]
    rfl

end View

end OpGraph
