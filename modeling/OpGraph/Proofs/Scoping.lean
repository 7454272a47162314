import Mathlib.Data.List.Nodup
import OpGraph.Proofs.Captures

/-!
# Closed graphs are in single-assignment form

In a decoded graph without captures every use, at any depth, has exactly one binder, and the
binder is in scope: a parameter of a region around the use, or an output of a node that comes
before the use in such a region.
-/

namespace OpGraph

namespace Decoded

/-! ## Binders and uses -/

/-- The way to a region: the position of a node and one of its regions, level by level. -/
abbrev Address := List (Nat × Nat)

inductive Binder.Slot
  | parameter (index : Nat)
  | output (position index : Nat)
  deriving DecidableEq, Repr

/-- Where a value is produced: by a parameter of a region, or by an output of a node in it. -/
structure Binder where
  region : Address
  slot : Binder.Slot
  deriving DecidableEq, Repr

/-- Where a value is used: by a node of a region or, where there is no position, by the results of
the region. -/
structure Use where
  region : Address
  position : Option Nat
  deriving DecidableEq, Repr

inductive Region.Binds : Region → Binder → ValueId → Prop
  | parameter {r : Region} {i : Nat} {id : ValueId} (hi : (ids r.inputs)[i]? = some id) :
      Binds r ⟨[], .parameter i⟩ id
  | output {r : Region} {p i : Nat} {n : Node} {id : ValueId} (hn : r.nodes[p]? = some n)
      (hi : (ids n.outputs)[i]? = some id) : Binds r ⟨[], .output p i⟩ id
  | nested {r s : Region} {p k : Nat} {n : Node} {a : Address} {slot : Binder.Slot} {id : ValueId}
      (hn : r.nodes[p]? = some n) (hs : n.regions[k]? = some s) (h : Binds s ⟨a, slot⟩ id) :
      Binds r ⟨(p, k) :: a, slot⟩ id

inductive Region.Uses : Region → Use → ValueId → Prop
  | input {r : Region} {p : Nat} {n : Node} {id : ValueId} (hn : r.nodes[p]? = some n)
      (hid : id ∈ ids n.inputs) : Uses r ⟨[], some p⟩ id
  | result {r : Region} {id : ValueId} (hid : id ∈ ids r.outputs) : Uses r ⟨[], none⟩ id
  | nested {r s : Region} {p k : Nat} {n : Node} {a : Address} {position : Option Nat}
      {id : ValueId} (hn : r.nodes[p]? = some n) (hs : n.regions[k]? = some s)
      (h : Uses s ⟨a, position⟩ id) : Uses r ⟨(p, k) :: a, position⟩ id

/-- The position of the node that is or contains a use, seen from a region from which the rest of
the way leads on; the results of that region have none. -/
def holder (position : Option Nat) : (rest : Address) → Option Nat
  | [] => position
  | (p, _) :: _ => some p

/-- The region of the binder encloses the use, and a node that binds comes before the one that is
or contains the use. -/
def Binder.Reaches (b : Binder) (u : Use) : Prop :=
  ∃ rest, u.region = b.region ++ rest ∧
    match b.slot with
    | .parameter _ => True
    | .output p _ => ∀ q, holder u.position rest = some q → p < q

theorem Binder.Reaches.nested {a : Address} {slot : Binder.Slot} {u : Use} {p k : Nat}
    (h : Reaches ⟨a, slot⟩ u) : Reaches ⟨(p, k) :: a, slot⟩ ⟨(p, k) :: u.region, u.position⟩ := by
  obtain ⟨rest, hregion, hslot⟩ := h
  exact ⟨rest, congrArg ((p, k) :: ·) hregion, hslot⟩

/-! ## Every use is free or bound -/

theorem mem_freeInNodes_of_mem_results {results bound : List ValueId} {ns : List Node}
    {id : ValueId} (hid : id ∈ results) (hbound : id ∉ bound)
    (hns : ∀ m ∈ ns, id ∉ ids m.outputs) : id ∈ freeInNodes results bound ns := by
  induction ns generalizing bound with
  | nil => simp [freeInNodes, hid, hbound]
  | cons n ns ih =>
      have hn := hns n List.mem_cons_self
      refine List.mem_append_right _ (ih ?_ fun m hm => hns m (List.mem_cons_of_mem _ hm))
      simp [hbound, hn]

theorem mem_freeInNodes_of_mem_free {results bound : List ValueId} {ns : List Node} {p : Nat}
    {n : Node} {id : ValueId} (hn : ns[p]? = some n) (hid : id ∈ n.free) (hbound : id ∉ bound)
    (hns : ∀ q < p, ∀ m, ns[q]? = some m → id ∉ ids m.outputs) :
    id ∈ freeInNodes results bound ns := by
  induction ns generalizing bound p with
  | nil => simp at hn
  | cons m ns ih =>
      cases p with
      | zero =>
          obtain rfl : m = n := by simpa using hn
          exact List.mem_append_left _ (by simp [hid, hbound])
      | succ p =>
          have hm := hns 0 (Nat.succ_pos p) m rfl
          refine List.mem_append_right _ (ih (by simpa using hn) (by simp [hbound, hm]) ?_)
          exact fun q hq => hns (q + 1) (Nat.succ_lt_succ hq)

namespace Region

variable {r : Region} {id : ValueId}

theorem exists_binds_of_mem_inputs (h : id ∈ ids r.inputs) :
    ∃ i, r.Binds ⟨[], .parameter i⟩ id := by
  obtain ⟨i, hi⟩ := List.mem_iff_getElem?.mp h
  exact ⟨i, .parameter hi⟩

theorem exists_binds_of_mem_outputs {p : Nat} {n : Node} (hn : r.nodes[p]? = some n)
    (h : id ∈ ids n.outputs) : ∃ i, r.Binds ⟨[], .output p i⟩ id := by
  obtain ⟨i, hi⟩ := List.mem_iff_getElem?.mp h
  exact ⟨i, .output hn hi⟩

/-- What a node uses is free in its region, a parameter, or an output of an earlier node. -/
theorem mem_free_or_reached {p : Nat} {n : Node} {a : Address} {position : Option Nat}
    (hn : r.nodes[p]? = some n) (hid : id ∈ n.free) (hp : holder position a = some p) :
    id ∈ r.free ∨ ∃ b, r.Binds b id ∧ b.Reaches ⟨a, position⟩ := by
  by_cases hinputs : id ∈ ids r.inputs
  · obtain ⟨i, hi⟩ := exists_binds_of_mem_inputs hinputs
    exact .inr ⟨_, hi, a, rfl, trivial⟩
  · by_cases hnodes : ∃ q < p, ∃ m, r.nodes[q]? = some m ∧ id ∈ ids m.outputs
    · obtain ⟨q, hq, m, hm, hout⟩ := hnodes
      obtain ⟨i, hi⟩ := exists_binds_of_mem_outputs hm hout
      refine .inr ⟨_, hi, a, rfl, fun q' hq' => ?_⟩
      obtain rfl : p = q' := Option.some.inj (hp.symm.trans hq')
      exact hq
    · left
      obtain ⟨inputs, outputs, captures, nodes⟩ := r
      refine mem_freeInNodes_of_mem_free hn hid hinputs fun q hq m hm hout => ?_
      exact hnodes ⟨q, hq, m, hm, hout⟩

theorem mem_free_or_reached_of_mem_outputs (hid : id ∈ ids r.outputs) :
    id ∈ r.free ∨ ∃ b, r.Binds b id ∧ b.Reaches ⟨[], none⟩ := by
  by_cases hinputs : id ∈ ids r.inputs
  · obtain ⟨i, hi⟩ := exists_binds_of_mem_inputs hinputs
    exact .inr ⟨_, hi, [], rfl, trivial⟩
  · by_cases hnodes : ∃ m ∈ r.nodes, id ∈ ids m.outputs
    · obtain ⟨m, hm, hout⟩ := hnodes
      obtain ⟨q, hq⟩ := List.mem_iff_getElem?.mp hm
      obtain ⟨i, hi⟩ := exists_binds_of_mem_outputs hq hout
      exact .inr ⟨_, hi, [], rfl, nofun⟩
    · left
      obtain ⟨inputs, outputs, captures, nodes⟩ := r
      refine mem_freeInNodes_of_mem_results hid hinputs fun m hm hout => ?_
      exact hnodes ⟨m, hm, hout⟩

end Region

theorem mem_freeInRegions {regions : List Region} {r : Region} {id : ValueId} (hr : r ∈ regions)
    (hid : id ∈ r.free) : id ∈ freeInRegions regions := by
  induction regions with
  | nil => simp at hr
  | cons s regions ih =>
      rcases List.mem_cons.mp hr with rfl | hr
      · exact List.mem_append_left _ hid
      · exact List.mem_append_right _ (ih hr)

theorem Node.mem_free_of_mem_inputs {n : Node} {id : ValueId} (h : id ∈ ids n.inputs) :
    id ∈ n.free := by
  obtain ⟨kind, schema, inputs, outputs, constant, regions⟩ := n
  exact List.mem_append_left _ h

theorem Node.mem_free_of_mem_region {n : Node} {k : Nat} {s : Region} {id : ValueId}
    (hs : n.regions[k]? = some s) (h : id ∈ s.free) : id ∈ n.free := by
  obtain ⟨kind, schema, inputs, outputs, constant, regions⟩ := n
  exact List.mem_append_right _ (mem_freeInRegions (List.mem_of_getElem? hs) h)

theorem Region.Uses.mem_free_or_reached {r : Region} {u : Use} {id : ValueId} (h : r.Uses u id) :
    id ∈ r.free ∨ ∃ b, r.Binds b id ∧ b.Reaches u := by
  induction h with
  | input hn hid => exact Region.mem_free_or_reached hn (Node.mem_free_of_mem_inputs hid) rfl
  | result hid => exact mem_free_or_reached_of_mem_outputs hid
  | nested hn hs _ ih =>
      rcases ih with hfree | ⟨b, hb, hreach⟩
      · exact Region.mem_free_or_reached hn (Node.mem_free_of_mem_region hs hfree) rfl
      · exact .inr ⟨_, .nested hn hs hb, hreach.nested⟩

/-! ## No value has two binders -/

mutual

/-- What a node produces, at any depth. -/
def Node.bindings : Node → List ValueId
  | ⟨_, _, _, outputs, _, regions⟩ => bindingsInRegions regions ++ ids outputs

def bindingsInRegions : List Region → List ValueId
  | [] => []
  | r :: rest => r.bindings ++ bindingsInRegions rest

def Region.bindings : Region → List ValueId
  | ⟨inputs, _, _, nodes⟩ => ids inputs ++ bindingsInNodes nodes

def bindingsInNodes : List Node → List ValueId
  | [] => []
  | n :: rest => n.bindings ++ bindingsInNodes rest

end

theorem bindingsInRegions_eq (rs : List Region) :
    bindingsInRegions rs = rs.flatMap Region.bindings := by
  induction rs with
  | nil => rfl
  | cons r rs ih => exact congrArg (r.bindings ++ ·) ih

theorem bindingsInNodes_eq (ns : List Node) : bindingsInNodes ns = ns.flatMap Node.bindings := by
  induction ns with
  | nil => rfl
  | cons n ns ih => exact congrArg (n.bindings ++ ·) ih

theorem Node.bindings_eq (n : Node) :
    n.bindings = n.regions.flatMap Region.bindings ++ ids n.outputs := by
  obtain ⟨kind, schema, inputs, outputs, constant, regions⟩ := n
  simp only [Node.bindings, bindingsInRegions_eq]

theorem Region.bindings_eq (r : Region) :
    r.bindings = ids r.inputs ++ r.nodes.flatMap Node.bindings := by
  obtain ⟨inputs, outputs, captures, nodes⟩ := r
  simp only [Region.bindings, bindingsInNodes_eq]

theorem index_eq_of_nodup_flatMap {α β : Type} {f : α → List β} {l : List α} {i j : Nat} {a b : α}
    {x : β} (h : (l.flatMap f).Nodup) (hi : l[i]? = some a) (hj : l[j]? = some b) (ha : x ∈ f a)
    (hb : x ∈ f b) : i = j := by
  have hdisjoint := (List.nodup_flatMap.mp h).2
  rw [List.pairwise_iff_getElem] at hdisjoint
  obtain ⟨hil, rfl⟩ := List.getElem?_eq_some_iff.mp hi
  obtain ⟨hjl, rfl⟩ := List.getElem?_eq_some_iff.mp hj
  rcases Nat.lt_trichotomy i j with hlt | heq | hlt
  · exact (hdisjoint i j hil hjl hlt ha hb).elim
  · exact heq
  · exact (hdisjoint j i hjl hil hlt hb ha).elim

theorem getElem?_eq_of_nodup_flatMap {α β : Type} {f : α → List β} {l : List α} {i j : Nat}
    {a b : α} {x : β} (h : (l.flatMap f).Nodup) (hi : l[i]? = some a) (hj : l[j]? = some b)
    (ha : x ∈ f a) (hb : x ∈ f b) : i = j ∧ a = b := by
  obtain rfl : i = j := index_eq_of_nodup_flatMap h hi hj ha hb
  exact ⟨rfl, Option.some.inj (hi.symm.trans hj)⟩

namespace Node

variable {n : Node} {k l : Nat} {s t : Region} {id : ValueId}

theorem mem_bindings_of_mem_outputs (h : id ∈ ids n.outputs) : id ∈ n.bindings := by
  rw [bindings_eq]
  exact List.mem_append_right _ h

theorem mem_bindings_of_mem_region (hs : n.regions[k]? = some s) (h : id ∈ s.bindings) :
    id ∈ n.bindings := by
  rw [bindings_eq]
  exact List.mem_append_left _ (List.mem_flatMap.mpr ⟨s, List.mem_of_getElem? hs, h⟩)

theorem nodup_outputs (hn : n.bindings.Nodup) : (ids n.outputs).Nodup := by
  rw [bindings_eq] at hn
  exact hn.of_append_right

theorem nodup_region (hn : n.bindings.Nodup) (hs : n.regions[k]? = some s) : s.bindings.Nodup := by
  rw [bindings_eq] at hn
  exact (List.nodup_flatMap.mp hn.of_append_left).1 s (List.mem_of_getElem? hs)

theorem notMem_region_of_mem_outputs (hn : n.bindings.Nodup) (hs : n.regions[k]? = some s)
    (h : id ∈ ids n.outputs) : id ∉ s.bindings := by
  rw [bindings_eq] at hn
  intro hid
  exact List.disjoint_of_nodup_append hn
    (List.mem_flatMap.mpr ⟨s, List.mem_of_getElem? hs, hid⟩) h

theorem region_eq_of_mem_bindings (hn : n.bindings.Nodup) (hs : n.regions[k]? = some s)
    (ht : n.regions[l]? = some t) (h : id ∈ s.bindings) (h' : id ∈ t.bindings) :
    k = l ∧ s = t := by
  rw [bindings_eq] at hn
  exact getElem?_eq_of_nodup_flatMap hn.of_append_left hs ht h h'

end Node

namespace Region

variable {r : Region} {p q : Nat} {n m : Node} {id : ValueId}

theorem mem_bindings_of_mem_node (hn : r.nodes[p]? = some n) (h : id ∈ n.bindings) :
    id ∈ r.bindings := by
  rw [bindings_eq]
  exact List.mem_append_right _ (List.mem_flatMap.mpr ⟨n, List.mem_of_getElem? hn, h⟩)

theorem nodup_inputs (hr : r.bindings.Nodup) : (ids r.inputs).Nodup := by
  rw [bindings_eq] at hr
  exact hr.of_append_left

theorem nodup_node (hr : r.bindings.Nodup) (hn : r.nodes[p]? = some n) : n.bindings.Nodup := by
  rw [bindings_eq] at hr
  exact (List.nodup_flatMap.mp hr.of_append_right).1 n (List.mem_of_getElem? hn)

theorem notMem_node_of_mem_inputs (hr : r.bindings.Nodup) (hn : r.nodes[p]? = some n)
    (h : id ∈ ids r.inputs) : id ∉ n.bindings := by
  rw [bindings_eq] at hr
  intro hid
  exact List.disjoint_of_nodup_append hr h
    (List.mem_flatMap.mpr ⟨n, List.mem_of_getElem? hn, hid⟩)

theorem node_eq_of_mem_bindings (hr : r.bindings.Nodup) (hn : r.nodes[p]? = some n)
    (hm : r.nodes[q]? = some m) (h : id ∈ n.bindings) (h' : id ∈ m.bindings) :
    p = q ∧ n = m := by
  rw [bindings_eq] at hr
  exact getElem?_eq_of_nodup_flatMap hr.of_append_right hn hm h h'

theorem Binds.mem_bindings {b : Binder} (h : r.Binds b id) : id ∈ r.bindings := by
  induction h with
  | parameter hi =>
      rw [bindings_eq]
      exact List.mem_append_left _ (List.mem_of_getElem? hi)
  | output hn hi =>
      exact mem_bindings_of_mem_node hn (Node.mem_bindings_of_mem_outputs (List.mem_of_getElem? hi))
  | nested hn hs _ ih =>
      exact mem_bindings_of_mem_node hn (Node.mem_bindings_of_mem_region hs ih)

theorem index_eq_of_nodup {xs : List ValueId} {i j : Nat} (h : xs.Nodup) (hi : xs[i]? = some id)
    (hj : xs[j]? = some id) : i = j := by
  obtain ⟨hlt, _⟩ := List.getElem?_eq_some_iff.mp hi
  exact (List.getElem?_inj hlt h).mp (hi.trans hj.symm)

/-- A parameter and a node of its region never bind the same value, nor do two nodes, nor a node
and something inside it. -/
theorem Binds.unique {b b' : Binder} (hr : r.bindings.Nodup) (h : r.Binds b id)
    (h' : r.Binds b' id) : b = b' := by
  induction h generalizing b' with
  | @parameter r i id hi =>
      have hid := List.mem_of_getElem? hi
      cases h' with
      | parameter hj => rw [index_eq_of_nodup (nodup_inputs hr) hi hj]
      | output hm hj =>
          have hout := Node.mem_bindings_of_mem_outputs (List.mem_of_getElem? hj)
          exact (notMem_node_of_mem_inputs hr hm hid hout).elim
      | nested hm ht h' =>
          have hin := Node.mem_bindings_of_mem_region ht h'.mem_bindings
          exact (notMem_node_of_mem_inputs hr hm hid hin).elim
  | @output r p i n id hn hi =>
      have hid := List.mem_of_getElem? hi
      have hout := Node.mem_bindings_of_mem_outputs hid
      cases h' with
      | parameter hj =>
          exact (notMem_node_of_mem_inputs hr hn (List.mem_of_getElem? hj) hout).elim
      | @output _ q j m _ hm hj =>
          obtain ⟨rfl, rfl⟩ : p = q ∧ n = m := node_eq_of_mem_bindings hr hn hm hout
            (Node.mem_bindings_of_mem_outputs (List.mem_of_getElem? hj))
          rw [index_eq_of_nodup (Node.nodup_outputs (nodup_node hr hn)) hi hj]
      | @nested _ t q l m a slot _ hm ht h' =>
          obtain ⟨rfl, rfl⟩ : p = q ∧ n = m := node_eq_of_mem_bindings hr hn hm hout
            (Node.mem_bindings_of_mem_region ht h'.mem_bindings)
          exact (Node.notMem_region_of_mem_outputs (nodup_node hr hn) ht hid h'.mem_bindings).elim
  | @nested r s p k n a slot id hn hs h ih =>
      have hin := Node.mem_bindings_of_mem_region hs h.mem_bindings
      cases h' with
      | parameter hj =>
          exact (notMem_node_of_mem_inputs hr hn (List.mem_of_getElem? hj) hin).elim
      | @output _ q j m _ hm hj =>
          have hid := List.mem_of_getElem? hj
          obtain ⟨rfl, rfl⟩ : p = q ∧ n = m := node_eq_of_mem_bindings hr hn hm hin
            (Node.mem_bindings_of_mem_outputs hid)
          exact (Node.notMem_region_of_mem_outputs (nodup_node hr hn) hs hid h.mem_bindings).elim
      | @nested _ t q l m a' slot' _ hm ht h' =>
          obtain ⟨rfl, rfl⟩ : p = q ∧ n = m := node_eq_of_mem_bindings hr hn hm hin
            (Node.mem_bindings_of_mem_region ht h'.mem_bindings)
          have hnode := nodup_node hr hn
          obtain ⟨rfl, rfl⟩ : k = l ∧ s = t :=
            Node.region_eq_of_mem_bindings hnode hs ht h.mem_bindings h'.mem_bindings
          obtain ⟨rfl, rfl⟩ := Binder.mk.inj (ih (Node.nodup_region hnode hs) h')
          rfl

end Region

end Decoded

/-! ## Decoded graphs -/

theorem map_value_contentsProductions (owner : String) (region position : Nat) (ns : List Node) :
    (contentsProductions owner region position ns).map Production.value =
      ns.flatMap fun n => n.productions.map Production.value := by
  induction ns generalizing position with
  | nil => rfl
  | cons n ns ih =>
      rw [contentsProductions_cons, List.map_append, Production.map_value_within, ih,
        List.flatMap_cons]

theorem map_value_blocksProductions {owner : String} {f : Node → List ValueId} (region : Nat)
    {bs : List Node}
    (h : ∀ b ∈ bs, ∀ index, (b.blockProductions owner index).map Production.value = f b) :
    (blocksProductions owner region bs).map Production.value = bs.flatMap f := by
  induction bs generalizing region with
  | nil => rfl
  | cons b bs ih =>
      rw [blocksProductions, List.map_append, h b List.mem_cons_self,
        ih _ fun c hc => h c (List.mem_cons_of_mem _ hc), List.flatMap_cons]

theorem Node.map_value_blockProductions (names : TypeNames) (b : Node) (owner : String)
    (region : Nat) :
    (b.blockProductions owner region).map Production.value =
      (b.describedBlock names).bindings := by
  induction b using block_induction generalizing owner region with
  | step b ih =>
      have hnode (n : Node) (hn : n ∈ b.contents) :
          n.productions.map Production.value = (n.described names).bindings := by
        rw [productions, List.map_append, Production.map_value_ofIds, innerProductions_eq,
          map_value_blocksProductions 0 fun c hc _ => ih n hn c hc _ _, Decoded.Node.bindings_eq,
          described_regions, described_outputs, Decoded.ids_map_of, List.flatMap_map]
      rw [blockProductions_eq, List.map_append, Production.map_value_ofIds,
        map_value_contentsProductions, List.flatMap_congr hnode, describedBlock_eq,
        Decoded.Region.bindings_eq]
      simp [Decoded.Region.of, List.flatMap_map]

namespace View

theorem map_value_productions {v : View} {index : Nat} {b : Node}
    (h : v.node.regions[index]? = some b) :
    (v.productions index).map Production.value = (b.describedBlock v.names).bindings := by
  rw [productions_eq h, b.map_value_blockProductions v.names]

/-- In a decoded graph that captures nothing, every use has exactly one binder, and it is in
scope. -/
theorem exists_unique_binder_of_use {v : View} {g : Decoded.Graph} (h : v.decode = .ok g)
    (hclosed : g.body.captures = []) {u : Decoded.Use} {id : ValueId} (hu : g.body.Uses u id) :
    ∃ b : Decoded.Binder, g.body.Binds b id ∧ b.Reaches u ∧
      ∀ b' : Decoded.Binder, g.body.Binds b' id → b' = b := by
  obtain ⟨block, hblock, rfl, hnodup⟩ := exists_region_of_decode_eq_ok h
  have hregion : v.region 0 = .ok ⟨block, v.names⟩ := by rw [region_eq, hblock]; rfl
  have hbindings : (block.describedBlock v.names).bindings.Nodup := by
    rwa [productions, hregion, block.map_value_blockProductions v.names] at hnodup
  have hfree : id ∉ (block.describedBlock v.names).free := by
    rw [block.captures_describedBlock] at hclosed
    rw [← List.mem_eraseDups, hclosed]
    exact List.not_mem_nil
  obtain ⟨b, hb, hreach⟩ := hu.mem_free_or_reached.resolve_left hfree
  exact ⟨b, hb, hreach, fun b' hb' => hb'.unique hbindings hb⟩

/-- A loop whose body uses its own parameter `%2`, the earlier node's `%1` and the graph's `%0`. -/
def looping : View :=
  let value (n : UInt64) : Value := { id := ⟨n⟩, type := .unknownTensor }
  let trips : Node := { kind := Kind.constant, outputs := [value 1] }
  let relu : Node :=
    { kind := "aten::relu", inputs := [value 2, value 1, value 0], outputs := [value 3] }
  let block : Node :=
    { kind := Kind.block, inputs := [value 2], outputs := [value 3, value 1], body := some [relu] }
  let loop : Node :=
    { kind := "prim::Loop", inputs := [value 1, value 0], outputs := [value 4], blocks := [block] }
  ⟨{ kind := Kind.graph, inputs := [value 0], outputs := [value 4],
     body := some [trips, loop] }, .empty⟩

theorem exists_unique_binder_looping :
    ∃ g, looping.decode = .ok g ∧ g.body.captures = [] ∧
      g.body.Uses ⟨[(1, 0)], some 0⟩ ⟨1⟩ ∧
      ∃ b : Decoded.Binder, g.body.Binds b ⟨1⟩ ∧ b.Reaches ⟨[(1, 0)], some 0⟩ ∧
        ∀ b' : Decoded.Binder, g.body.Binds b' ⟨1⟩ → b' = b := by
  have h : looping.decode = .ok ⟨Kind.graph, looping.node.describedBlock .empty⟩ := by
    rw [decode_of_regions (show looping.node.regions = [looping.node] from rfl)]
    rfl
  have hclosed : (looping.node.describedBlock .empty).captures = [] := rfl
  have hu : (looping.node.describedBlock .empty).Uses ⟨[(1, 0)], some 0⟩ ⟨1⟩ :=
    .nested rfl rfl (.input rfl (.tail _ (.head _)))
  exact ⟨_, h, hclosed, hu, exists_unique_binder_of_use h hclosed hu⟩

end View

end OpGraph
