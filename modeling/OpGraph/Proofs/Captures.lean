import Mathlib.Data.List.Basic
import Mathlib.Data.List.Induction
import OpGraph.Proofs.Walk

/-!
# Captures are the free values

A region captures what is used in it, at any depth, and bound neither by its parameters nor by an
earlier node.  Decoding finds this level by level, from captures that are already without
repetition; here it is shown to be the flat list of free uses with only first uses kept.
-/

namespace OpGraph

/-! ## First occurrences -/

section FirstOccurrences

variable {α : Type} [DecidableEq α]

theorem eraseDups_filter (p : α → Bool) (l : List α) :
    (l.filter p).eraseDups = l.eraseDups.filter p := by
  cases l with
  | nil => rfl
  | cons a l =>
      have ih := eraseDups_filter p (l.filter fun b => !b == a)
      rw [List.filter_comm] at ih
      rw [List.eraseDups_cons]
      by_cases ha : p a
      · rw [List.filter_cons_of_pos ha, List.eraseDups_cons, List.filter_cons_of_pos ha, ← ih]
      · have hne : (l.filter p).filter (fun b => !b == a) = l.filter p := by
          refine List.filter_eq_self.mpr fun b hb => ?_
          have hpb := (List.mem_filter.mp hb).2
          simp only [Bool.not_eq_true', beq_eq_false_iff_ne]
          rintro rfl
          exact ha hpb
        rw [List.filter_cons_of_neg ha, List.filter_cons_of_neg ha, ← ih, hne]
termination_by l.length
decreasing_by exact Nat.lt_succ_of_le (List.length_filter_le _ _)

theorem eraseDups_append_eq (xs ys : List α) :
    (xs ++ ys).eraseDups = xs.eraseDups ++ ys.eraseDups.filter (· ∉ xs) := by
  rw [List.eraseDups_append, ← eraseDups_filter]
  simp [List.removeAll]

theorem eraseDups_append_congr {xs xs' ys ys' : List α} (hx : xs.eraseDups = xs'.eraseDups)
    (hy : ys.eraseDups = ys'.eraseDups) : (xs ++ ys).eraseDups = (xs' ++ ys').eraseDups := by
  have hmem (a : α) : a ∈ xs ↔ a ∈ xs' := by
    rw [← List.mem_eraseDups, hx, List.mem_eraseDups]
  simp only [eraseDups_append_eq, hx, hy, hmem]

theorem eraseDups_append_singleton (xs : List α) (a : α) :
    (xs ++ [a]).eraseDups = if a ∈ xs then xs.eraseDups else xs.eraseDups ++ [a] := by
  rw [eraseDups_append_eq]
  by_cases ha : a ∈ xs <;> simp [List.eraseDups_cons, ha]

theorem eraseDups_eraseDups (xs : List α) : xs.eraseDups.eraseDups = xs.eraseDups := by
  induction xs using List.reverseRecOn with
  | nil => rfl
  | append_singleton xs a ih =>
      rw [eraseDups_append_singleton]
      by_cases ha : a ∈ xs
      · rw [if_pos ha, ih]
      · rw [if_neg ha, eraseDups_append_singleton, if_neg (by simpa using ha), ih]

theorem nodup_eraseDups (xs : List α) : xs.eraseDups.Nodup := by
  induction xs using List.reverseRecOn with
  | nil => exact .nil
  | append_singleton xs a ih =>
      rw [eraseDups_append_singleton]
      by_cases ha : a ∈ xs
      · rwa [if_pos ha]
      · rw [if_neg ha]
        rw [← List.concat_eq_append]
        exact ih.concat (by simpa using ha)

end FirstOccurrences

namespace Decoded

/-! ## Free values -/

mutual

/-- What a node uses, at any depth, and does not bind itself. -/
def Node.free : Node → List ValueId
  | ⟨_, _, inputs, _, _, regions⟩ => ids inputs ++ freeInRegions regions

def freeInRegions : List Region → List ValueId
  | [] => []
  | r :: rest => r.free ++ freeInRegions rest

def Region.free : Region → List ValueId
  | ⟨inputs, outputs, _, nodes⟩ => freeInNodes (ids outputs) (ids inputs) nodes

/-- The free uses of nodes and, after them, of the results of their region, where something is
bound already. -/
def freeInNodes (results bound : List ValueId) : List Node → List ValueId
  | [] => results.filter (· ∉ bound)
  | n :: rest => n.free.filter (· ∉ bound) ++ freeInNodes results (bound ++ ids n.outputs) rest

end

/-- A region of a region, at any depth. -/
inductive Region.Within : Region → Region → Prop
  | refl (r : Region) : Within r r
  | nested {r s t : Region} {n : Node} (hn : n ∈ r.nodes) (hs : s ∈ n.regions)
      (h : Within t s) : Within t r

theorem addCaptures_eq (locals xs ids : List ValueId) :
    addCaptures locals xs.eraseDups ids = (xs ++ ids.filter (· ∉ locals)).eraseDups := by
  induction ids generalizing xs with
  | nil => simp [addCaptures]
  | cons id ids ih =>
      have happend : xs ++ id :: ids.filter (· ∉ locals) =
          (xs ++ [id]) ++ ids.filter (· ∉ locals) := by simp
      simp only [addCaptures, List.mem_eraseDups]
      by_cases hl : id ∈ locals
      · rw [if_pos (.inl hl), ih, List.filter_cons_of_neg (by simpa using hl)]
      · rw [List.filter_cons_of_pos (by simpa using hl), happend]
        by_cases hx : id ∈ xs
        · rw [if_pos (.inr hx), ih]
          exact eraseDups_append_congr (by rw [eraseDups_append_singleton, if_pos hx]) rfl
        · rw [if_neg (not_or.mpr ⟨hl, hx⟩), ← ih, eraseDups_append_singleton, if_neg hx]

theorem eraseDups_captures_eq {regions : List Region}
    (h : ∀ r ∈ regions, r.captures = r.free.eraseDups) :
    (regions.flatMap Region.captures).eraseDups = (freeInRegions regions).eraseDups := by
  induction regions with
  | nil => rfl
  | cons r regions ih =>
      have hr : r.captures.eraseDups = r.free.eraseDups := by
        rw [h r List.mem_cons_self, eraseDups_eraseDups]
      exact eraseDups_append_congr hr (ih fun s hs => h s (List.mem_cons_of_mem _ hs))

theorem Node.eraseDups_uses_eq {n : Node} (h : ∀ r ∈ n.regions, r.captures = r.free.eraseDups) :
    n.uses.eraseDups = n.free.eraseDups := by
  obtain ⟨kind, schema, inputs, outputs, constant, regions⟩ := n
  exact eraseDups_append_congr rfl (eraseDups_captures_eq h)

theorem capturesFrom_eq {results locals bound : List ValueId} (xs : List ValueId) {ns : List Node}
    (hbound : ∀ id, id ∈ locals ↔ id ∈ bound)
    (h : ∀ n ∈ ns, ∀ r ∈ n.regions, r.captures = r.free.eraseDups) :
    capturesFrom results locals xs.eraseDups ns =
      (xs ++ freeInNodes results bound ns).eraseDups := by
  induction ns generalizing locals bound xs with
  | nil => simp only [capturesFrom, addCaptures_eq, freeInNodes, hbound]
  | cons n ns ih =>
      have hn : (xs ++ n.uses.filter (· ∉ locals)).eraseDups =
          (xs ++ n.free.filter (· ∉ bound)).eraseDups := by
        refine eraseDups_append_congr rfl ?_
        simp only [eraseDups_filter, hbound, Node.eraseDups_uses_eq (h n List.mem_cons_self)]
      have hbound' (id : ValueId) :
          id ∈ (ids n.outputs).reverse ++ locals ↔ id ∈ bound ++ ids n.outputs := by
        simp only [List.mem_append, List.mem_reverse, hbound, or_comm]
      have hrest : ∀ m ∈ ns, ∀ r ∈ m.regions, r.captures = r.free.eraseDups :=
        fun m hm => h m (List.mem_cons_of_mem n hm)
      rw [capturesFrom, addCaptures_eq, hn, ih _ hbound' hrest, freeInNodes, List.append_assoc]

theorem Region.captures_of_eq {inputs outputs : List Value} {ns : List Node}
    (h : ∀ n ∈ ns, ∀ r ∈ n.regions, r.captures = r.free.eraseDups) :
    (Region.of inputs outputs ns).captures = (Region.of inputs outputs ns).free.eraseDups := by
  have hfree : (Region.of inputs outputs ns).free =
      freeInNodes (ids outputs) (ids inputs) ns := rfl
  rw [hfree, ← List.nil_append (freeInNodes _ _ _)]
  exact capturesFrom_eq [] (fun _ => Iff.rfl) h

end Decoded

/-! ## Decoded regions -/

namespace Node

variable (names : TypeNames)

theorem captures_describedBlock (b : Node) :
    (b.describedBlock names).captures = (b.describedBlock names).free.eraseDups := by
  induction b using block_induction with
  | step b ih =>
      rw [describedBlock_eq]
      refine Decoded.Region.captures_of_eq fun d hd r hr => ?_
      obtain ⟨n, hn, rfl⟩ := List.mem_map.mp hd
      rw [described_regions] at hr
      obtain ⟨c, hc, rfl⟩ := List.mem_map.mp hr
      exact ih n hn c hc

/-- Every region inside a described one is a description itself, of a block that has whatever
passes from a block to those inside it. -/
theorem exists_inner_of_within_describedBlock {names : TypeNames} {P : Node → Prop}
    (hP : ∀ b, P b → ∀ n ∈ b.contents, ∀ c ∈ n.regions, P c) {b : Node} (hb : P b)
    {r : Decoded.Region} (h : r.Within (b.describedBlock names)) :
    ∃ c, P c ∧ r = c.describedBlock names := by
  generalize hs : b.describedBlock names = s at h
  induction h generalizing b with
  | refl s => exact ⟨b, hb, hs.symm⟩
  | @nested s r' t d hd hr _ ih =>
      rw [← hs, describedBlock_eq] at hd
      obtain ⟨n, hn, rfl⟩ := List.mem_map.mp hd
      rw [described_regions] at hr
      obtain ⟨c, hc, rfl⟩ := List.mem_map.mp hr
      exact ih (hP b hb n hn c hc) rfl

theorem exists_of_within_describedBlock {names : TypeNames} {b : Node} {r : Decoded.Region}
    (h : r.Within (b.describedBlock names)) : ∃ c : Node, r = c.describedBlock names := by
  obtain ⟨c, _, hc⟩ := exists_inner_of_within_describedBlock (P := fun _ => True)
    (fun _ _ _ _ _ _ => trivial) trivial h
  exact ⟨c, hc⟩

end Node

namespace View

theorem captures_eq_eraseDups_free {v : View} {g : Decoded.Graph} (h : v.decode = .ok g)
    {r : Decoded.Region} (hr : r.Within g.body) : r.captures = r.free.eraseDups := by
  obtain ⟨block, _, rfl, _⟩ := exists_region_of_decode_eq_ok h
  obtain ⟨b, rfl⟩ := Node.exists_of_within_describedBlock hr
  exact b.captures_describedBlock v.names

/-- A branch whose sides use `%2` and `%5` from outside, and a graph that puts out an inner
value. -/
def branching : View :=
  let value (n : UInt64) : Value := { id := ⟨n⟩, type := .unknownTensor }
  let relu : Node :=
    { kind := "aten::relu", inputs := [value 2, value 1, value 2], outputs := [value 4] }
  let left : Node :=
    { kind := Kind.block, inputs := [value 1], outputs := [value 4, value 5], body := some [relu] }
  let right : Node :=
    { kind := Kind.block, outputs := [value 5, value 2], body := some [] }
  let branch : Node :=
    { kind := "prim::If", inputs := [value 0], outputs := [value 3], blocks := [left, right] }
  ⟨{ kind := Kind.graph, inputs := [value 0], outputs := [value 3, value 4],
     body := some [branch] }, .empty⟩

theorem captures_branching :
    ∃ g, branching.decode = .ok g ∧ g.body.captures = g.body.free.eraseDups ∧
      g.body.captures = [⟨2⟩, ⟨5⟩, ⟨4⟩] ∧
      g.body.free = [⟨2⟩, ⟨2⟩, ⟨5⟩, ⟨5⟩, ⟨2⟩, ⟨4⟩] := by
  have h : branching.decode = .ok ⟨Kind.graph, branching.node.describedBlock .empty⟩ := by
    rw [decode_of_regions (show branching.node.regions = [branching.node] from rfl)]
    rfl
  exact ⟨_, h, captures_eq_eraseDups_free h (.refl _), rfl, rfl⟩

end View

end OpGraph
