import OpGraph.Proofs.Layers
import OpGraph.View

/-!
# Descendants

The nodes below a view in pre-order, each with the way down to it.  A way down is a list of steps,
and following it from node to node leads to exactly the nodes that are listed.
-/

namespace OpGraph

/-! ## Ways down -/

/-- Following the steps, each of which names the node that it is taken from, one of its regions and
a node in there, is possible and ends at the second view. -/
inductive View.Leads : View → List Step → View → Prop
  | here (v : View) : Leads v [] v
  | step {v c w : View} {index position : Nat} {cs : List View} {path : List Step}
      (hindex : index < v.regionCount) (hcs : v.children index = .ok cs)
      (hc : cs[position]? = some c) (h : Leads c path w) :
      Leads v (⟨v.kind, index, position⟩ :: path) w

namespace View

theorem leads_step {v w : View} {index position : Nat} {b n : Node} {path : List Step}
    (hb : v.node.regions[index]? = some b) (hn : b.contents[position]? = some n)
    (h : Leads ⟨n, v.names⟩ path w) : v.Leads (⟨v.kind, index, position⟩ :: path) w := by
  obtain ⟨hindex, _⟩ := List.getElem?_eq_some_iff.mp hb
  have hcs : v.children index = .ok (b.contents.map fun n => ⟨n, v.names⟩) := by
    rw [children, region_eq, hb]
    rfl
  have hc : (b.contents.map fun n => (⟨n, v.names⟩ : View))[position]? = some ⟨n, v.names⟩ := by
    rw [List.getElem?_map, hn]
    rfl
  exact .step (by rwa [regionCount_eq]) hcs hc h

theorem exists_of_children_eq_ok {v c : View} {index position : Nat} {cs : List View}
    (hcs : v.children index = .ok cs) (hc : cs[position]? = some c) :
    ∃ b n, v.node.regions[index]? = some b ∧ b.contents[position]? = some n ∧
      c = ⟨n, v.names⟩ := by
  rw [children, region_eq] at hcs
  split at hcs
  · rename_i b hb
    obtain rfl : b.contents.map (fun n => ⟨n, v.names⟩) = cs := Except.ok.inj hcs
    obtain ⟨n, hn, rfl⟩ := Option.map_eq_some_iff.mp (List.getElem?_map.symm.trans hc)
    exact ⟨b, n, hb, hn, rfl⟩
  · cases hcs

end View

/-! ## Pre-order -/

structure Descendant where
  path : List Step
  view : View

namespace Descendant

def within (s : Step) (d : Descendant) : Descendant := { d with path := s :: d.path }

/-- A fault met at a descendant, as it is seen from above. -/
def fault (d : Descendant) (e : Fault) : Fault := d.path.foldr Fault.within e

@[simp] theorem within_view (s : Step) (d : Descendant) : (d.within s).view = d.view := rfl

@[simp] theorem fault_within (s : Step) (d : Descendant) (e : Fault) :
    (d.within s).fault e = Fault.within s (d.fault e) := rfl

@[simp] theorem path_fault (d : Descendant) (e : Fault) : (d.fault e).path = d.path ++ e.path :=
  Fault.path_wrap d.path e

@[simp] theorem root_fault (d : Descendant) (e : Fault) : (d.fault e).root = e.root :=
  Fault.root_wrap d.path e

end Descendant

section Listing

variable (names : TypeNames)

mutual

/-- The nodes in the regions of a node, each followed by those in its own regions. -/
def Node.descendants : Node → List Descendant
  | .mk kind _ _ _ blocks body =>
      match body with
      | some contents => contentsDescendants kind 0 0 contents
      | none => blocksDescendants kind 0 blocks

def contentsDescendants (owner : String) (region position : Nat) : List Node → List Descendant
  | [] => []
  | n :: rest =>
      (⟨[], n, names⟩ :: n.descendants).map (Descendant.within ⟨owner, region, position⟩) ++
        contentsDescendants owner region (position + 1) rest

def Node.blockDescendants (owner : String) (region : Nat) : Node → List Descendant
  | .mk _ _ _ _ _ body =>
      match body with
      | some contents => contentsDescendants owner region 0 contents
      | none => []

def blocksDescendants (owner : String) (region : Nat) : List Node → List Descendant
  | [] => []
  | b :: rest => b.blockDescendants owner region ++ blocksDescendants owner (region + 1) rest

end

theorem Node.blockDescendants_eq (owner : String) (region : Nat) (b : Node) :
    b.blockDescendants names owner region =
      contentsDescendants names owner region 0 b.contents := by
  obtain ⟨kind, schema, inputs, outputs, blocks, body⟩ := b
  cases body <;> rfl

theorem Node.descendants_eq (n : Node) :
    n.descendants names = blocksDescendants names n.kind 0 n.regions := by
  obtain ⟨kind, schema, inputs, outputs, blocks, body⟩ := n
  cases body with
  | none => rfl
  | some contents => simp [descendants, regions, blocksDescendants, blockDescendants]

variable {names} {owner : String} {d : Descendant}

theorem mem_contentsDescendants_iff {region position : Nat} {ns : List Node} :
    d ∈ contentsDescendants names owner region position ns ↔ ∃ i n c, ns[i]? = some n ∧
      c ∈ (⟨[], n, names⟩ :: n.descendants names : List Descendant) ∧
        d = c.within ⟨owner, region, position + i⟩ := by
  induction ns generalizing position with
  | nil => simp [contentsDescendants]
  | cons n ns ih =>
      rw [contentsDescendants, List.mem_append, List.mem_map, ih]
      constructor
      · rintro (⟨c, hc, rfl⟩ | ⟨i, m, c, hm, hc, rfl⟩)
        · exact ⟨0, n, c, rfl, hc, rfl⟩
        · exact ⟨i + 1, m, c, hm, hc, by rw [Nat.add_right_comm, Nat.add_assoc]⟩
      · rintro ⟨i, m, c, hm, hc, rfl⟩
        cases i with
        | zero =>
            obtain rfl : n = m := by simpa using hm
            exact .inl ⟨c, hc, rfl⟩
        | succ i => exact .inr ⟨i, m, c, hm, hc, by rw [Nat.add_right_comm, Nat.add_assoc]⟩

theorem mem_blocksDescendants_iff {region : Nat} {bs : List Node} :
    d ∈ blocksDescendants names owner region bs ↔ ∃ (i : Nat) (b : Node), bs[i]? = some b ∧
      d ∈ b.blockDescendants names owner (region + i) := by
  induction bs generalizing region with
  | nil => simp [blocksDescendants]
  | cons b bs ih =>
      rw [blocksDescendants, List.mem_append, ih]
      constructor
      · rintro (hd | ⟨i, c, hc, hd⟩)
        · exact ⟨0, b, rfl, hd⟩
        · exact ⟨i + 1, c, hc, by rwa [Nat.add_right_comm, Nat.add_assoc] at hd⟩
      · rintro ⟨i, c, hc, hd⟩
        cases i with
        | zero =>
            obtain rfl : b = c := by simpa using hc
            exact .inl hd
        | succ i => exact .inr ⟨i, c, hc, by rwa [Nat.add_right_comm, Nat.add_assoc]⟩

end Listing

/-! ## Where the descendants are -/

namespace View

/-- The nodes of a region, each followed by the nodes below it. -/
def descendants (v : View) (index : Nat) : List Descendant :=
  match v.region index with
  | .ok block => block.node.blockDescendants v.names v.kind index
  | .error _ => []

variable {v w : View} {index : Nat} {d : Descendant}

theorem descendants_eq {b : Node} (h : v.node.regions[index]? = some b) :
    v.descendants index = b.blockDescendants v.names v.kind index := by
  rw [descendants, region_eq, h]

theorem mem_descendants_step :
    d ∈ v.descendants index ↔ ∃ b position n c, v.node.regions[index]? = some b ∧
      b.contents[position]? = some n ∧
      c ∈ (⟨[], n, v.names⟩ :: n.descendants v.names : List Descendant) ∧
        d = c.within ⟨v.kind, index, position⟩ := by
  cases hb : v.node.regions[index]? with
  | none => simp [descendants, region_eq, hb]
  | some b =>
      rw [descendants_eq hb, Node.blockDescendants_eq, mem_contentsDescendants_iff]
      simp

theorem mem_node_descendants_iff :
    d ∈ v.node.descendants v.names ↔ ∃ index, d ∈ v.descendants index := by
  rw [Node.descendants_eq, mem_blocksDescendants_iff]
  constructor
  · rintro ⟨i, b, hb, hd⟩
    rw [Nat.zero_add] at hd
    exact ⟨i, by rwa [descendants_eq hb]⟩
  · rintro ⟨i, hd⟩
    obtain ⟨b, _, _, _, hb, _⟩ := mem_descendants_step.mp hd
    rw [descendants_eq hb] at hd
    exact ⟨i, b, hb, by rwa [Nat.zero_add]⟩

theorem leads_of_mem_descendants {v : View} {index : Nat} {d : Descendant}
    (h : d ∈ v.descendants index) :
    (∃ position path, d.path = ⟨v.kind, index, position⟩ :: path) ∧ v.Leads d.path d.view := by
  obtain ⟨b, position, n, c, hb, hn, hc, rfl⟩ := mem_descendants_step.mp h
  refine ⟨⟨position, c.path, rfl⟩, leads_step hb hn ?_⟩
  rcases List.mem_cons.mp hc with rfl | hc
  · exact .here _
  · obtain ⟨i, hc⟩ := mem_node_descendants_iff (v := ⟨n, v.names⟩).mp hc
    exact (leads_of_mem_descendants hc).2
termination_by sizeOf v.node
decreasing_by exact Node.sizeOf_lt_of_mem_region (List.mem_of_getElem? hb) (List.mem_of_getElem? hn)

theorem mem_descendants_of_leads {s : Step} {path : List Step} (h : v.Leads (s :: path) w) :
    ⟨s :: path, w⟩ ∈ v.descendants s.region := by
  induction path generalizing v s with
  | nil =>
      obtain _ | ⟨_, hcs, hc, h⟩ := h
      obtain ⟨b, n, hb, hn, rfl⟩ := exists_of_children_eq_ok hcs hc
      obtain rfl : w = ⟨n, v.names⟩ := by
        cases h
        rfl
      exact mem_descendants_step.mpr ⟨b, _, n, _, hb, hn, List.mem_cons_self, rfl⟩
  | cons t path ih =>
      obtain _ | ⟨_, hcs, hc, h⟩ := h
      obtain ⟨b, n, hb, hn, rfl⟩ := exists_of_children_eq_ok hcs hc
      have hbelow := mem_node_descendants_iff.mpr ⟨_, ih h⟩
      exact mem_descendants_step.mpr ⟨b, _, n, _, hb, hn, List.mem_cons_of_mem _ hbelow, rfl⟩

/-- The descendants in a region are all that ways down through it lead to. -/
theorem mem_descendants_iff :
    d ∈ v.descendants index ↔
      (∃ position path, d.path = ⟨v.kind, index, position⟩ :: path) ∧ v.Leads d.path d.view := by
  refine ⟨leads_of_mem_descendants, ?_⟩
  obtain ⟨path, w⟩ := d
  rintro ⟨⟨position, rest, rfl⟩, h⟩
  exact mem_descendants_of_leads h

end View

end OpGraph
