import OpGraph.Proofs.Descendants
import OpGraph.Proofs.SingleProducer

/-!
# Where a value is produced again

The path of a fault that decoding ends with can be followed from the graph, and leads to the view
that produces the value of the fault once more: as one of its outputs, or as a parameter of the
block behind one of its regions.
-/

namespace OpGraph

namespace View

/-- Something of one kind produces a value: the view itself as an output, or the block behind one
of its regions as a parameter. -/
inductive Produces (x : View) : String → ValueId → Prop
  | output {id : ValueId} (hid : id ∈ x.ids .output) : Produces x x.kind id
  | parameter {index : Nat} {block : View} {id : ValueId} (hblock : x.region index = .ok block)
      (hid : id ∈ block.ids .input) : Produces x block.kind id

end View

/-! ## Productions and their paths -/

theorem Production.mem_ofIds_iff {kind : String} {ids : List ValueId} {p : Production} :
    p ∈ ofIds kind ids ↔ p.path = [] ∧ p.kind = kind ∧ p.value ∈ ids := by
  obtain ⟨path, k, id⟩ := p
  simp [ofIds, and_left_comm, eq_comm]

theorem exists_of_mem_contentsProductions {owner : String} {region position : Nat}
    {ns : List Node} {p : Production} (h : p ∈ contentsProductions owner region position ns) :
    ∃ (i : Nat) (n : Node) (q : Production), ns[i]? = some n ∧ q ∈ n.productions ∧
      p = q.within ⟨owner, region, position + i⟩ := by
  induction ns generalizing position with
  | nil => cases h
  | cons n ns ih =>
      rw [contentsProductions_cons, List.mem_append, List.mem_map] at h
      rcases h with ⟨q, hq, rfl⟩ | h
      · exact ⟨0, n, q, rfl, hq, rfl⟩
      · obtain ⟨i, m, q, hm, hq, rfl⟩ := ih h
        exact ⟨i + 1, m, q, hm, hq, by rw [Nat.add_right_comm, Nat.add_assoc]⟩

theorem exists_of_mem_blocksProductions {owner : String} {region : Nat} {bs : List Node}
    {p : Production} (h : p ∈ blocksProductions owner region bs) :
    ∃ (i : Nat) (b : Node), bs[i]? = some b ∧ p ∈ b.blockProductions owner (region + i) := by
  induction bs generalizing region with
  | nil => cases h
  | cons b bs ih =>
      rw [blocksProductions, List.mem_append] at h
      rcases h with h | h
      · exact ⟨0, b, rfl, h⟩
      · obtain ⟨i, c, hc, hp⟩ := ih h
        exact ⟨i + 1, c, hc, by rwa [Nat.add_right_comm, Nat.add_assoc] at hp⟩

namespace View

variable {v : View} {index : Nat} {p : Production}

theorem exists_of_mem_innerProductions (h : p ∈ v.node.innerProductions) :
    ∃ index b, v.node.regions[index]? = some b ∧ p ∈ v.productions index := by
  rw [Node.innerProductions_eq] at h
  obtain ⟨i, b, hb, hp⟩ := exists_of_mem_blocksProductions h
  rw [Nat.zero_add] at hp
  exact ⟨i, b, hb, by rwa [productions_eq hb]⟩

/-- The path of a production leads from the view that it is listed for to the one that makes it. -/
theorem exists_produces_of_mem_productions {v : View} {index : Nat} {b : Node} {p : Production}
    (hb : v.node.regions[index]? = some b) (h : p ∈ v.productions index) :
    ∃ x, v.Leads p.path x ∧ x.Produces p.kind p.value := by
  have hregion : v.region index = .ok ⟨b, v.names⟩ := by rw [region_eq, hb]
  rw [productions_eq hb, Node.blockProductions_eq, List.mem_append] at h
  rcases h with h | h
  · obtain ⟨hpath, hkind, hvalue⟩ := Production.mem_ofIds_iff.mp h
    rw [hpath, hkind]
    exact ⟨v, .here v, .parameter hregion hvalue⟩
  · obtain ⟨i, n, q, hn, hq, rfl⟩ := exists_of_mem_contentsProductions h
    rw [Nat.zero_add]
    -- Either something in the regions of the node makes it, or the node puts it out itself.
    rcases List.mem_append.mp hq with hq | hq
    · obtain ⟨k, c, hc, hq⟩ := exists_of_mem_innerProductions (v := ⟨n, v.names⟩) hq
      obtain ⟨x, hx, hmakes⟩ := exists_produces_of_mem_productions hc hq
      exact ⟨x, leads_step hb hn hx, hmakes⟩
    · obtain ⟨hpath, hkind, hvalue⟩ := Production.mem_ofIds_iff.mp hq
      refine ⟨⟨n, v.names⟩, leads_step hb hn ?_, ?_⟩
      · rw [hpath]
        exact .here _
      · rw [Production.within_kind, hkind]
        exact .output hvalue
termination_by sizeOf v.node
decreasing_by exact Node.sizeOf_lt_of_mem_region (List.mem_of_getElem? hb) (List.mem_of_getElem? hn)

/-- A graph that is refused has a production of a value that an earlier production made already,
and its path, which is that of the fault, leads to where the value is produced again. -/
theorem exists_offender_of_decode_eq_error {v : View} {e : Fault} (h : v.regionCount = 1)
    (he : v.decode = .error e) :
    ∃ x kind value, v.Leads e.path x ∧ e.root = .duplicateProducer kind value ∧
      x.Produces kind value ∧
      ∃ before p after, v.productions 0 = before ++ p :: after ∧
        p.path = e.path ∧ p.kind = kind ∧ p.value = value ∧
        ∃ q ∈ before, q.value = value := by
  obtain ⟨b, hb⟩ := exists_regions_of_regionCount_eq_one h
  obtain ⟨p, ⟨before, after, hps, _, hbefore⟩, rfl⟩ :=
    exists_firstRepeat_of_decode_eq_error h he
  have hp : p ∈ v.productions 0 := by
    rw [hps]
    exact List.mem_append_right _ List.mem_cons_self
  obtain ⟨x, hx, hmakes⟩ := exists_produces_of_mem_productions (by rw [hb]; rfl) hp
  obtain ⟨q, hq, hvalue⟩ := List.mem_map.mp hbefore
  exact ⟨x, p.kind, p.value, by rwa [p.path_fault], p.root_fault, hmakes, before, p, after, hps,
    p.path_fault.symm, rfl, rfl, q, hq, hvalue⟩

/-- A branch in a loop, one side of which has the earlier constant's `%1` as a parameter. -/
def reusing : View :=
  let value (n : UInt64) : Value := { id := ⟨n⟩, type := .scalar "int" }
  let side : Node := { kind := Kind.block, inputs := [value 1], body := some [] }
  let branch : Node := { kind := "prim::If", outputs := [value 2], blocks := [side] }
  let block : Node := { kind := Kind.block, inputs := [value 3], body := some [branch] }
  ⟨{ kind := Kind.graph, inputs := [value 0],
     body := some [{ kind := Kind.constant, outputs := [value 1] },
       { kind := "prim::Loop", outputs := [value 4], blocks := [block] }] }, .empty⟩

theorem exists_offender_reusing :
    reusing.regionCount = 1 ∧ ∃ e, reusing.decode = .error e ∧
      e.path = [⟨Kind.graph, 0, 1⟩, ⟨"prim::Loop", 0, 0⟩] ∧
      ∃ x kind value, reusing.Leads e.path x ∧ e.root = .duplicateProducer kind value ∧
        x.Produces kind value ∧
        ∃ before p after, reusing.productions 0 = before ++ p :: after ∧
          p.path = e.path ∧ p.kind = kind ∧ p.value = value ∧
          ∃ q ∈ before, q.value = value := by
  have hcount : reusing.regionCount = 1 := rfl
  have h : reusing.decode = .error (.inRegion Kind.graph 0 1
      (.inRegion "prim::Loop" 0 0 (.duplicateProducer Kind.block ⟨1⟩))) := by
    rw [decode_of_regions (show reusing.node.regions = [reusing.node] from rfl)]
    rfl
  exact ⟨hcount, _, h, rfl, exists_offender_of_decode_eq_error hcount h⟩

end View

end OpGraph
