import OpGraph.Proofs.Scoping

/-!
# Values that a stored node consumes

What a node takes from around it, said of the node itself and not of what it is decoded to.  In a
region in topological order the place of a node has no part in it: what the region captures is what
its nodes and results use and nothing in it binds.
-/

namespace OpGraph

mutual

/-- A node consumes its inputs and what is free in its regions. -/
inductive Node.Consumes : Node → ValueId → Prop
  | input {n : Node} {id : ValueId} (hid : id ∈ n.inputs.map Value.id) : Node.Consumes n id
  | region {n b : Node} {id : ValueId} (hb : b ∈ n.regions) (hid : Node.Free b id) :
      Node.Consumes n id

/-- A value is free in the region behind a block: a node consumes it and neither a parameter nor an
earlier node gives it, or it is a result that nothing in the region gives. -/
inductive Node.Free : Node → ValueId → Prop
  | node {b n : Node} {p : Nat} {id : ValueId} (hparam : id ∉ b.inputs.map Value.id)
      (hn : b.contents[p]? = some n) (hid : Node.Consumes n id)
      (hearlier : ∀ q < p, ∀ m, b.contents[q]? = some m → id ∉ m.outputs.map Value.id) :
      Node.Free b id
  | result {b : Node} {id : ValueId} (hparam : id ∉ b.inputs.map Value.id)
      (hid : id ∈ b.outputs.map Value.id)
      (hnodes : ∀ m ∈ b.contents, id ∉ m.outputs.map Value.id) : Node.Free b id

end

/-- The region behind a block is in topological order, and so are those inside it: no node consumes
an output of its own or of a later node. -/
inductive Node.Ordered : Node → Prop
  | intro {b : Node}
      (later : ∀ (p q : Nat) (n m : Node), p ≤ q → b.contents[p]? = some n →
        b.contents[q]? = some m → ∀ id, n.Consumes id → id ∉ m.outputs.map Value.id)
      (inner : ∀ n ∈ b.contents, ∀ c ∈ n.regions, Node.Ordered c) : Node.Ordered b

/-! ## Free values of descriptions -/

namespace Decoded

theorem mem_freeInNodes_iff {results bound : List ValueId} {ns : List Node} {id : ValueId} :
    id ∈ freeInNodes results bound ns ↔ id ∉ bound ∧
      ((∃ (p : Nat) (n : Node), ns[p]? = some n ∧ id ∈ n.free ∧
          ∀ q < p, ∀ m, ns[q]? = some m → id ∉ ids m.outputs) ∨
        id ∈ results ∧ ∀ m ∈ ns, id ∉ ids m.outputs) := by
  constructor
  · intro h
    induction ns generalizing bound with
    | nil =>
        obtain ⟨hid, hbound⟩ := List.mem_filter.mp h
        exact ⟨by simpa using hbound, .inr ⟨hid, nofun⟩⟩
    | cons n ns ih =>
        rcases List.mem_append.mp h with h | h
        · obtain ⟨hid, hbound⟩ := List.mem_filter.mp h
          exact ⟨by simpa using hbound, .inl ⟨0, n, rfl, hid, nofun⟩⟩
        · obtain ⟨hbound, h⟩ := ih h
          obtain ⟨hbound, hn⟩ := not_or.mp (mt List.mem_append.mpr hbound)
          refine ⟨hbound, ?_⟩
          rcases h with ⟨p, m, hm, hid, hearlier⟩ | ⟨hid, hns⟩
          · refine .inl ⟨p + 1, m, hm, hid, ?_⟩
            rintro (_ | q) hq k hk
            · obtain rfl : n = k := by simpa using hk
              exact hn
            · exact hearlier q (Nat.lt_of_succ_lt_succ hq) k hk
          · exact .inr ⟨hid, List.forall_mem_cons.mpr ⟨hn, hns⟩⟩
  · rintro ⟨hbound, ⟨p, n, hn, hid, hearlier⟩ | ⟨hid, hns⟩⟩
    · exact mem_freeInNodes_of_mem_free hn hid hbound hearlier
    · exact mem_freeInNodes_of_mem_results hid hbound hns

theorem mem_freeInRegions_iff {regions : List Region} {id : ValueId} :
    id ∈ freeInRegions regions ↔ ∃ r ∈ regions, id ∈ r.free := by
  induction regions with
  | nil => simp [freeInRegions]
  | cons r regions ih => simp [freeInRegions, ih]

theorem Node.mem_free_iff {n : Node} {id : ValueId} :
    id ∈ n.free ↔ id ∈ ids n.inputs ∨ ∃ r ∈ n.regions, id ∈ r.free := by
  obtain ⟨kind, schema, inputs, outputs, constant, regions⟩ := n
  simp [Node.free, mem_freeInRegions_iff]

theorem Region.mem_free_iff {r : Region} {id : ValueId} :
    id ∈ r.free ↔ id ∉ ids r.inputs ∧
      ((∃ (p : Nat) (n : Node), r.nodes[p]? = some n ∧ id ∈ n.free ∧
          ∀ q < p, ∀ m, r.nodes[q]? = some m → id ∉ ids m.outputs) ∨
        id ∈ ids r.outputs ∧ ∀ m ∈ r.nodes, id ∉ ids m.outputs) := by
  obtain ⟨inputs, outputs, captures, nodes⟩ := r
  exact mem_freeInNodes_iff

/-- A region captures what its results or nodes use and what is no parameter or output of a node in
it, wherever in the region it is used. -/
def Region.CapturesUnbound (r : Region) : Prop :=
  ∀ id, id ∈ r.captures ↔ (id ∈ ids r.outputs ∨ ∃ n ∈ r.nodes, id ∈ n.free) ∧
    id ∉ ids r.inputs ∧ ∀ n ∈ r.nodes, id ∉ ids n.outputs

end Decoded

namespace Node

variable {names : TypeNames} {id : ValueId}

theorem consumes_iff {n : Node} :
    n.Consumes id ↔ id ∈ n.inputs.map Value.id ∨ ∃ b ∈ n.regions, b.Free id := by
  constructor
  · rintro (hid | ⟨hb, hid⟩)
    · exact .inl hid
    · exact .inr ⟨_, hb, hid⟩
  · rintro (hid | ⟨b, hb, hid⟩)
    · exact .input hid
    · exact .region hb hid

theorem free_iff {b : Node} :
    b.Free id ↔ id ∉ b.inputs.map Value.id ∧
      ((∃ (p : Nat) (n : Node), b.contents[p]? = some n ∧ n.Consumes id ∧
          ∀ q < p, ∀ m, b.contents[q]? = some m → id ∉ m.outputs.map Value.id) ∨
        id ∈ b.outputs.map Value.id ∧ ∀ m ∈ b.contents, id ∉ m.outputs.map Value.id) := by
  constructor
  · rintro (⟨hparam, hn, hid, hearlier⟩ | ⟨hparam, hid, hnodes⟩)
    · exact ⟨hparam, .inl ⟨_, _, hn, hid, hearlier⟩⟩
    · exact ⟨hparam, .inr ⟨hid, hnodes⟩⟩
  · rintro ⟨hparam, ⟨p, n, hn, hid, hearlier⟩ | ⟨hid, hnodes⟩⟩
    · exact .node hparam hn hid hearlier
    · exact .result hparam hid hnodes

theorem mem_free_described_iff_of_regions {n : Node}
    (h : ∀ b ∈ n.regions, (id ∈ (b.describedBlock names).free ↔ b.Free id)) :
    id ∈ (n.described names).free ↔ n.Consumes id := by
  rw [Decoded.Node.mem_free_iff, consumes_iff, described_inputs, Decoded.ids_map_of,
    described_regions]
  refine or_congr_right ⟨?_, ?_⟩
  · rintro ⟨r, hr, hid⟩
    obtain ⟨b, hb, rfl⟩ := List.mem_map.mp hr
    exact ⟨b, hb, (h b hb).mp hid⟩
  · rintro ⟨b, hb, hid⟩
    exact ⟨_, List.mem_map_of_mem hb, (h b hb).mpr hid⟩

/-- Whether a value is free does not depend on the names that are recognised. -/
theorem mem_free_describedBlock_iff {b : Node} :
    id ∈ (b.describedBlock names).free ↔ b.Free id := by
  induction b using block_induction with
  | step b ih =>
      rw [describedBlock_eq, Decoded.Region.mem_free_iff, free_iff]
      simp only [Decoded.Region.of, Decoded.ids_map_of, List.getElem?_map, Option.map_eq_some_iff,
        List.forall_mem_map, forall_exists_index, and_imp, forall_apply_eq_imp_iff₂,
        described_outputs, exists_exists_and_eq_and]
      refine and_congr_right fun _ => or_congr_left ?_
      refine exists_congr fun p => exists_congr fun n => and_congr_right fun hn => ?_
      apply and_congr_left
      intro _
      exact mem_free_described_iff_of_regions fun c hc => ih n (List.mem_of_getElem? hn) c hc

theorem mem_free_described_iff {n : Node} : id ∈ (n.described names).free ↔ n.Consumes id :=
  mem_free_described_iff_of_regions fun _ _ => mem_free_describedBlock_iff

theorem mem_captures_describedBlock_iff {b : Node} :
    id ∈ (b.describedBlock names).captures ↔ b.Free id := by
  rw [captures_describedBlock, List.mem_eraseDups, mem_free_describedBlock_iff]

/-! ## Topological order -/

/-- Whether the order is topological can be computed from the free values of descriptions. -/
theorem ordered_of_pairwise {b : Node} (names : TypeNames)
    (own : ∀ n ∈ b.contents, ∀ id ∈ (n.described names).free, id ∉ n.outputs.map Value.id)
    (later : b.contents.Pairwise fun n m =>
      ∀ id ∈ (n.described names).free, id ∉ m.outputs.map Value.id)
    (inner : ∀ n ∈ b.contents, ∀ c ∈ n.regions, c.Ordered) : b.Ordered := by
  refine .intro (fun p q n m hpq hn hm id hid => ?_) inner
  have hfree : id ∈ (n.described names).free := mem_free_described_iff.mpr hid
  rcases Nat.eq_or_lt_of_le hpq with rfl | hlt
  · obtain rfl : n = m := Option.some.inj (hn.symm.trans hm)
    exact own n (List.mem_of_getElem? hn) id hfree
  · obtain ⟨hp, rfl⟩ := List.getElem?_eq_some_iff.mp hn
    obtain ⟨hq, rfl⟩ := List.getElem?_eq_some_iff.mp hm
    exact List.pairwise_iff_getElem.mp later p q hp hq hlt id hfree

theorem Ordered.inner {b : Node} (h : b.Ordered) {n c : Node} (hn : n ∈ b.contents)
    (hc : c ∈ n.regions) : c.Ordered := by
  obtain ⟨_, inner⟩ := h
  exact inner n hn c hc

/-- In topological order a value is free if something uses it and nothing binds it, wherever in the
region these stand. -/
theorem Ordered.free_iff {b : Node} (h : b.Ordered) :
    b.Free id ↔ (id ∈ b.outputs.map Value.id ∨ ∃ n ∈ b.contents, n.Consumes id) ∧
      id ∉ b.inputs.map Value.id ∧ ∀ m ∈ b.contents, id ∉ m.outputs.map Value.id := by
  obtain ⟨later, _⟩ := h
  rw [Node.free_iff]
  constructor
  · rintro ⟨hparam, ⟨p, n, hn, hid, hearlier⟩ | ⟨hid, hnodes⟩⟩
    · refine ⟨.inr ⟨n, List.mem_of_getElem? hn, hid⟩, hparam, fun m hm => ?_⟩
      obtain ⟨q, hq⟩ := List.mem_iff_getElem?.mp hm
      rcases Nat.lt_or_ge q p with hlt | hle
      · exact hearlier q hlt m hq
      · exact later p q n m hle hn hq id hid
    · exact ⟨.inl hid, hparam, hnodes⟩
  · rintro ⟨hid | ⟨n, hn, hid⟩, hparam, hnodes⟩
    · exact ⟨hparam, .inr ⟨hid, hnodes⟩⟩
    · obtain ⟨p, hp⟩ := List.mem_iff_getElem?.mp hn
      exact ⟨hparam, .inl ⟨p, n, hp, hid, fun q _ m hm => hnodes m (List.mem_of_getElem? hm)⟩⟩

theorem Ordered.capturesUnbound {b : Node} (h : b.Ordered) :
    (b.describedBlock names).CapturesUnbound := by
  intro id
  have huses : (∃ n ∈ b.contents, n.Consumes id) ↔
      ∃ d ∈ b.contents.map (described names), id ∈ d.free := by
    simp only [List.mem_map, exists_exists_and_eq_and, mem_free_described_iff]
  rw [mem_captures_describedBlock_iff, h.free_iff, describedBlock_eq, huses]
  simp only [Decoded.Region.of, Decoded.ids_map_of, List.forall_mem_map, described_outputs]

end Node

end OpGraph
