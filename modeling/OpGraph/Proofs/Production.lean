import Mathlib.Data.List.Nodup
import OpGraph.Decoding
import OpGraph.Proofs.Layers

/-!
# Productions

Everything that a graph produces, flattened into one list in the order in which decoding meets it:
the parameters of a block, then for every node in it what its regions produce and what the node
puts out.  Recording the list stops at the first identity that was produced before.
-/

namespace OpGraph

/-- A value that something of one kind produces, with the way to the node that it is met at. -/
structure Production where
  path : List Step
  kind : String
  value : ValueId
  deriving DecidableEq, Repr

namespace Production

def within (s : Step) (p : Production) : Production := { p with path := s :: p.path }

def fault (p : Production) : Fault :=
  p.path.foldr Fault.within (.duplicateProducer p.kind p.value)

@[simp] theorem within_kind (s : Step) (p : Production) : (p.within s).kind = p.kind := rfl

@[simp] theorem within_value (s : Step) (p : Production) : (p.within s).value = p.value := rfl

@[simp] theorem fault_within (s : Step) (p : Production) :
    (p.within s).fault = Fault.within s p.fault := rfl

@[simp] theorem root_fault (p : Production) :
    p.fault.root = .duplicateProducer p.kind p.value :=
  Fault.root_wrap p.path _

@[simp] theorem path_fault (p : Production) : p.fault.path = p.path :=
  (Fault.path_wrap p.path _).trans (List.append_nil p.path)

def ofIds (kind : String) (ids : List ValueId) : List Production := ids.map fun id => ⟨[], kind, id⟩

@[simp] theorem map_value_ofIds (kind : String) (ids : List ValueId) :
    (ofIds kind ids).map value = ids := by
  simp [ofIds, Function.comp_def]

@[simp] theorem map_value_within (s : Step) (ps : List Production) :
    (ps.map (within s)).map value = ps.map value := by
  simp [Function.comp_def]

end Production

/-! ## The productions of a graph -/

mutual

/-- What the regions of a node produce. -/
def Node.innerProductions : Node → List Production
  | .mk kind _ inputs _ blocks body =>
      match body with
      | some contents =>
          Production.ofIds kind (inputs.map Value.id) ++ contentsProductions kind 0 0 contents
      | none => blocksProductions kind 0 blocks

def contentsProductions (owner : String) (region position : Nat) : List Node → List Production
  | [] => []
  | n :: rest =>
      (n.innerProductions ++ Production.ofIds n.kind (n.outputs.map Value.id)).map
          (Production.within ⟨owner, region, position⟩) ++
        contentsProductions owner region (position + 1) rest

/-- What the region behind a block produces: its parameters, and then what its nodes do. -/
def Node.blockProductions (owner : String) (region : Nat) : Node → List Production
  | .mk kind _ inputs _ _ body =>
      Production.ofIds kind (inputs.map Value.id) ++
        match body with
        | some contents => contentsProductions owner region 0 contents
        | none => []

def blocksProductions (owner : String) (region : Nat) : List Node → List Production
  | [] => []
  | b :: rest => b.blockProductions owner region ++ blocksProductions owner (region + 1) rest

end

/-- What a node produces: first in its regions, and then by its outputs. -/
def Node.productions (n : Node) : List Production :=
  n.innerProductions ++ Production.ofIds n.kind (n.outputs.map Value.id)

theorem contentsProductions_cons (owner : String) (region position : Nat) (n : Node)
    (rest : List Node) :
    contentsProductions owner region position (n :: rest) =
      n.productions.map (Production.within ⟨owner, region, position⟩) ++
        contentsProductions owner region (position + 1) rest := rfl

theorem Node.blockProductions_eq (owner : String) (region : Nat) (b : Node) :
    b.blockProductions owner region =
      Production.ofIds b.kind (b.inputs.map Value.id) ++
        contentsProductions owner region 0 b.contents := by
  obtain ⟨kind, schema, inputs, outputs, blocks, body⟩ := b
  cases body <;> rfl

theorem Node.innerProductions_eq (n : Node) :
    n.innerProductions = blocksProductions n.kind 0 n.regions := by
  obtain ⟨kind, schema, inputs, outputs, blocks, body⟩ := n
  cases body with
  | none => rfl
  | some contents => simp [innerProductions, regions, blocksProductions, blockProductions]

def View.productions (v : View) (index : Nat) : List Production :=
  match v.region index with
  | .ok block => block.node.blockProductions v.kind index
  | .error _ => []

theorem View.productions_eq {v : View} {index : Nat} {b : Node}
    (h : v.node.regions[index]? = some b) :
    v.productions index = b.blockProductions v.kind index := by
  rw [productions, region_eq, h]

/-! ## Recording -/

/-- Records productions in turn, up to the first of an identity that was produced before. -/
def recordAll : List Production → List ValueId → Except Fault (List ValueId)
  | [], produced => .ok produced
  | p :: rest, produced =>
      if p.value ∈ produced then .error p.fault else recordAll rest (p.value :: produced)

theorem recordAll_append (ps qs : List Production) (produced : List ValueId) :
    recordAll (ps ++ qs) produced = (recordAll ps produced).bind (recordAll qs) := by
  induction ps generalizing produced with
  | nil => rfl
  | cons p ps ih =>
      simp only [List.cons_append, recordAll]
      split
      · rfl
      · exact ih _

theorem recordAll_within (s : Step) (ps : List Production) (produced : List ValueId) :
    recordAll (ps.map (Production.within s)) produced =
      (recordAll ps produced).mapError (Fault.within s) := by
  induction ps generalizing produced with
  | nil => rfl
  | cons p ps ih =>
      by_cases hp : p.value ∈ produced
      · simp only [List.map_cons, recordAll, Production.within_value, hp, if_true]
        rfl
      · simpa [recordAll, hp] using ih _

theorem exists_recordAll_eq_ok_iff (ps : List Production) (produced : List ValueId) :
    (∃ t, recordAll ps produced = .ok t) ↔
      (ps.map Production.value).Nodup ∧ ∀ p ∈ ps, p.value ∉ produced := by
  induction ps generalizing produced with
  | nil => simp [recordAll]
  | cons p ps ih =>
      by_cases hp : p.value ∈ produced
      · simp [recordAll, hp]
      · simp only [recordAll, hp, if_false, ih, List.map_cons, List.nodup_cons, List.mem_cons,
          forall_eq_or_imp, not_or, not_false_eq_true, true_and, List.mem_map, not_exists, not_and]
        constructor
        · rintro ⟨hnodup, hfresh⟩
          exact ⟨⟨fun q hq => (hfresh q hq).1, hnodup⟩, fun q hq => (hfresh q hq).2⟩
        · rintro ⟨⟨hne, hnodup⟩, hfresh⟩
          exact ⟨hnodup, fun q hq => ⟨hne q hq, hfresh q hq⟩⟩

/-- A failed recording stops at the first production that repeats something. -/
theorem exists_of_recordAll_eq_error {ps : List Production} {produced : List ValueId} {e : Fault}
    (h : recordAll ps produced = .error e) :
    ∃ before p after, ps = before ++ p :: after ∧
      (∃ t, recordAll before produced = .ok t) ∧
      (p.value ∈ produced ∨ p.value ∈ before.map Production.value) ∧ e = p.fault := by
  induction ps generalizing produced with
  | nil => simp [recordAll] at h
  | cons p ps ih =>
      by_cases hp : p.value ∈ produced
      · have he : e = p.fault := by simpa [recordAll, hp, eq_comm] using h
        exact ⟨[], p, ps, rfl, ⟨produced, rfl⟩, .inl hp, he⟩
      · obtain ⟨before, q, after, rfl, ⟨t, ht⟩, hq, he⟩ := ih (by simpa [recordAll, hp] using h)
        refine ⟨p :: before, q, after, rfl, ⟨t, by simpa [recordAll, hp] using ht⟩, ?_, he⟩
        rcases hq with hq | hq
        · rcases List.mem_cons.mp hq with hq | hq
          · exact .inr (by simp [hq])
          · exact .inl hq
        · exact .inr (List.mem_cons_of_mem _ hq)

theorem exists_recordAll_nil_eq_ok_iff (ps : List Production) :
    (∃ t, recordAll ps [] = .ok t) ↔ (ps.map Production.value).Nodup := by
  simp [exists_recordAll_eq_ok_iff]

end OpGraph
