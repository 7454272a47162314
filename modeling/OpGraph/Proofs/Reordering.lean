import Mathlib.Data.List.Perm.Basic
import OpGraph.Proofs.Consumption
import OpGraph.Proofs.SingleProducer

/-!
# The stored order does not matter

Two graphs that differ only by the order of the nodes in their regions are both decoded or both
refused.  If both orders are topological, the decoded graphs differ by the same reordering of nodes,
and each region captures the same values, if not in the same order.
-/

namespace OpGraph

/-! ## Reordered graphs -/

/-- For every region, by its address, the positions of its nodes in another order. -/
abbrev Reordering := Decoded.Address → List Nat

/-- The rest of a reordering, for the regions of the node at a position. -/
def Reordering.inside (o : Reordering) (p k : Nat) : Reordering := fun a => o ((p, k) :: a)

mutual

/-- Nodes that differ only by the order of the nodes in their regions; a reordering is given for
each region. -/
inductive Node.Reordered : (Nat → Reordering) → Node → Node → Prop
  | intro {o : Nat → Reordering} {n m : Node} (kind : m.kind = n.kind)
      (schema : m.schema = n.schema) (inputs : m.inputs = n.inputs)
      (outputs : m.outputs = n.outputs) (count : m.regions.length = n.regions.length)
      (regions : ∀ k b c, n.regions[k]? = some b → m.regions[k]? = some c →
        Node.BlockReordered (o k) b c) : Node.Reordered o n m

/-- Blocks whose regions differ only by the order of the nodes in them, at any depth. -/
inductive Node.BlockReordered : Reordering → Node → Node → Prop
  | intro {o : Reordering} {b c : Node} (inputs : c.inputs = b.inputs)
      (outputs : c.outputs = b.outputs) (order : (o []).Perm (List.range b.contents.length))
      (count : c.contents.length = b.contents.length)
      (contents : ∀ (j p : Nat) (n m : Node), (o [])[j]? = some p → b.contents[p]? = some n →
        c.contents[j]? = some m → Node.Reordered (o.inside p) n m) : Node.BlockReordered o b c

end

namespace Decoded

mutual

/-- Decoded nodes that differ only inside their regions. -/
inductive Node.Reordered : (Nat → Reordering) → Node → Node → Prop
  | intro {o : Nat → Reordering} {n m : Node} (kind : m.kind = n.kind)
      (schema : m.schema = n.schema) (inputs : m.inputs = n.inputs)
      (outputs : m.outputs = n.outputs) (constant : m.constant = n.constant)
      (count : m.regions.length = n.regions.length)
      (regions : ∀ k r s, n.regions[k]? = some r → m.regions[k]? = some s →
        Region.Reordered (o k) r s) : Node.Reordered o n m

/-- Decoded regions that differ only by the order of their nodes and of their captures, at any
depth. -/
inductive Region.Reordered : Reordering → Region → Region → Prop
  | intro {o : Reordering} {r s : Region} (inputs : s.inputs = r.inputs)
      (outputs : s.outputs = r.outputs) (captures : s.captures.Perm r.captures)
      (order : (o []).Perm (List.range r.nodes.length)) (count : s.nodes.length = r.nodes.length)
      (nodes : ∀ (j p : Nat) (n m : Node), (o [])[j]? = some p → r.nodes[p]? = some n →
        s.nodes[j]? = some m → Node.Reordered (o.inside p) n m) : Region.Reordered o r s

end

end Decoded

/-! ## Lists in another order -/

section Lists

variable {α β γ : Type} {R : α → β → Prop}

theorem exists_perm_forall₂ {order : List Nat} {xs : List α} {ys : List β}
    (horder : order.Perm (List.range xs.length)) (hcount : ys.length = xs.length)
    (h : ∀ (j p : Nat) (x : α) (y : β), order[j]? = some p → xs[p]? = some x →
      ys[j]? = some y → R x y) :
    ∃ zs, xs.Perm zs ∧ List.Forall₂ R zs ys := by
  have hlt (p : Nat) (hp : p ∈ order) : p < xs.length := List.mem_range.mp (horder.mem_iff.mp hp)
  have hlength : order.length = xs.length := by rw [horder.length_eq, List.length_range]
  refine ⟨order.pmap (fun p hp => xs[p]) hlt, ?_, ?_⟩
  · have hxs : (List.range xs.length).pmap (fun p hp => xs[p]) (fun _ => List.mem_range.mp) =
        xs := by
      apply List.ext_getElem
      · simp
      · intro i _ _
        simp
    exact (hxs ▸ horder.pmap _).symm
  · apply List.forall₂_iff_get.mpr
    refine ⟨by rw [List.length_pmap, hlength, hcount], fun j hj hy => ?_⟩
    rw [List.length_pmap] at hj
    rw [List.get_eq_getElem, List.get_eq_getElem, List.getElem_pmap]
    exact h j order[j] _ _ (List.getElem?_eq_getElem hj)
      (List.getElem?_eq_getElem (hlt _ (List.getElem_mem hj))) (List.getElem?_eq_getElem hy)

theorem perm_flatMap_of_forall₂ {f : α → List γ} {g : β → List γ} {xs : List α} {ys : List β}
    (h : List.Forall₂ (fun x y => (f x).Perm (g y)) xs ys) :
    (xs.flatMap f).Perm (ys.flatMap g) := by
  induction h with
  | nil => exact .refl _
  | cons hxy _ ih => exact hxy.append ih

theorem exists_mem_iff_of_forall₂ {P : α → Prop} {Q : β → Prop} {xs : List α} {ys : List β}
    (h : List.Forall₂ (fun x y => P x ↔ Q y) xs ys) : (∃ x ∈ xs, P x) ↔ ∃ y ∈ ys, Q y := by
  induction h with
  | nil => simp
  | cons hxy _ ih => simp [hxy, ih]

end Lists

namespace Node

variable {o : Reordering} {b c : Node} {names : TypeNames} {id : ValueId}

theorem Reordered.forall₂_regions {o : Nat → Reordering} {n m : Node} (h : n.Reordered o m) :
    List.Forall₂ (fun b c => b ∈ n.regions ∧ c ∈ m.regions ∧ ∃ o, b.BlockReordered o c)
      n.regions m.regions := by
  obtain ⟨_, _, _, _, count, regions⟩ := h
  apply List.forall₂_iff_get.mpr
  refine ⟨count.symm, fun k hk hk' => ⟨List.get_mem _ _, List.get_mem _ _, o k, ?_⟩⟩
  exact regions k _ _ (List.getElem?_eq_getElem hk) (List.getElem?_eq_getElem hk')

theorem BlockReordered.exists_perm (h : b.BlockReordered o c) :
    ∃ ns, b.contents.Perm ns ∧ List.Forall₂
      (fun n m => n ∈ b.contents ∧ m ∈ c.contents ∧ ∃ o, n.Reordered o m) ns c.contents := by
  obtain ⟨_, _, order, count, contents⟩ := h
  apply exists_perm_forall₂ order count
  intro j p n m hp hn hm
  exact ⟨List.mem_of_getElem? hn, List.mem_of_getElem? hm, _, contents j p n m hp hn hm⟩

theorem Reordered.of_leaf {o : Nat → Reordering} {n : Node} (hn : n.regions = []) :
    n.Reordered o n := by
  refine .intro rfl rfl rfl rfl rfl ?_
  rw [hn]
  exact nofun

theorem Reordered.of_region {o : Nat → Reordering} {n m : Node} (hn : n.regions = [b])
    (hm : m.regions = [c])
    (hsame : m.kind = n.kind ∧ m.schema = n.schema ∧ m.inputs = n.inputs ∧ m.outputs = n.outputs)
    (h : b.BlockReordered (o 0) c) : n.Reordered o m := by
  obtain ⟨hkind, hschema, hinputs, houtputs⟩ := hsame
  refine .intro hkind hschema hinputs houtputs (by rw [hn, hm]; rfl) ?_
  rw [hn, hm]
  rintro (_ | _) b' c' hb hc
  · cases hb
    cases hc
    exact h
  · cases hb

/-- Two nodes change places. -/
theorem BlockReordered.swap {n n' m m' : Node} (ho : o [] = [1, 0]) (hb : b.contents = [n, n'])
    (hc : c.contents = [m', m]) (hsame : c.inputs = b.inputs ∧ c.outputs = b.outputs)
    (h : n.Reordered (o.inside 0) m) (h' : n'.Reordered (o.inside 1) m') :
    b.BlockReordered o c := by
  obtain ⟨hinputs, houtputs⟩ := hsame
  refine .intro hinputs houtputs (by rw [ho, hb]; exact .swap 0 1 []) (by rw [hb, hc]; rfl) ?_
  rw [ho, hb, hc]
  rintro (_ | _ | _) p k l hp hk hl
  · cases hp
    cases hk
    cases hl
    exact h'
  · cases hp
    cases hk
    cases hl
    exact h
  · cases hp

/-! ## Producers -/

theorem BlockReordered.perm_bindings (h : b.BlockReordered o c) :
    (b.describedBlock names).bindings.Perm (c.describedBlock names).bindings := by
  induction b using block_induction generalizing o c with
  | step b ih =>
      have hnode (n m : Node) (hn : n ∈ b.contents) (o : Nat → Reordering)
          (h : n.Reordered o m) :
          (n.described names).bindings.Perm (m.described names).bindings := by
        have hregions := perm_flatMap_of_forall₂ <| h.forall₂_regions.imp
          fun _ _ ⟨hb, _, _, hbc⟩ => ih n hn _ hb hbc
        obtain ⟨_, _, _, houtputs, _, _⟩ := h
        simp only [Decoded.Node.bindings_eq, described_regions, described_outputs, houtputs,
          List.flatMap_map]
        exact hregions.append_right _
      obtain ⟨ns, hns, hcs⟩ := h.exists_perm
      have hcontents := perm_flatMap_of_forall₂ <| hcs.imp
        fun n m ⟨hn, _, o, hnm⟩ => hnode n m hn o hnm
      obtain ⟨hinputs, _, _, _, _⟩ := h
      simp only [Decoded.Region.bindings_eq, describedBlock_eq, Decoded.Region.of, hinputs,
        List.flatMap_map]
      apply List.Perm.append_left
      exact (hns.flatMap_right _).trans hcontents

/-! ## Captures -/

theorem BlockReordered.exists_mem_contents_iff {P : Node → Prop} (h : b.BlockReordered o c)
    (hP : ∀ n ∈ b.contents, ∀ m ∈ c.contents, ∀ o, n.Reordered o m → (P n ↔ P m)) :
    (∃ n ∈ b.contents, P n) ↔ ∃ m ∈ c.contents, P m := by
  obtain ⟨ns, hns, hcs⟩ := h.exists_perm
  simp only [hns.mem_iff]
  apply exists_mem_iff_of_forall₂
  exact hcs.imp fun n m ⟨hn, hm, o, hnm⟩ => hP n hn m hm o hnm

theorem BlockReordered.free_iff (h : b.BlockReordered o c) (hb : b.Ordered) (hc : c.Ordered) :
    b.Free id ↔ c.Free id := by
  induction b using block_induction generalizing o c with
  | step b ih =>
      have hconsumes : (∃ n ∈ b.contents, n.Consumes id) ↔ ∃ m ∈ c.contents, m.Consumes id := by
        apply h.exists_mem_contents_iff
        intro n hn m hm o hnm
        have hregions := exists_mem_iff_of_forall₂ <| hnm.forall₂_regions.imp
          fun _ _ ⟨hb', hc', _, h'⟩ => ih n hn _ hb' h' (hb.inner hn hb') (hc.inner hm hc')
        obtain ⟨_, _, hinputs, _, _, _⟩ := hnm
        rw [consumes_iff, consumes_iff, hinputs, hregions]
      have hnodes : (∃ n ∈ b.contents, id ∈ n.outputs.map Value.id) ↔
          ∃ m ∈ c.contents, id ∈ m.outputs.map Value.id := by
        apply h.exists_mem_contents_iff
        rintro n _ m _ o ⟨_, _, _, houtputs, _, _⟩
        rw [houtputs]
      replace hnodes := not_congr hnodes
      simp only [not_exists, not_and] at hnodes
      obtain ⟨hinputs, houtputs, _, _, _⟩ := h
      rw [hb.free_iff, hc.free_iff, hinputs, houtputs, hconsumes, hnodes]

theorem BlockReordered.perm_captures (h : b.BlockReordered o c) (hb : b.Ordered)
    (hc : c.Ordered) :
    (c.describedBlock names).captures.Perm (b.describedBlock names).captures := by
  have hnodup (d : Node) : (d.describedBlock names).captures.Nodup := by
    rw [captures_describedBlock]
    exact nodup_eraseDups _
  apply (List.perm_ext_iff_of_nodup (hnodup c) (hnodup b)).mpr
  intro id
  rw [mem_captures_describedBlock_iff, mem_captures_describedBlock_iff, h.free_iff hb hc]

/-! ## Descriptions -/

theorem BlockReordered.describedBlock (h : b.BlockReordered o c) (hb : b.Ordered)
    (hc : c.Ordered) :
    (b.describedBlock names).Reordered o (c.describedBlock names) := by
  induction b using block_induction generalizing o c with
  | step b ih =>
      have hnode (n m : Node) (hn : n ∈ b.contents) (hm : m ∈ c.contents) (o : Nat → Reordering)
          (hnm : n.Reordered o m) : (n.described names).Reordered o (m.described names) := by
        obtain ⟨hkind, hschema, hinputs, houtputs, hcount, hregions⟩ := hnm
        have hconstant : m.constant names = n.constant names := by
          rw [constant, constant, hkind, houtputs]
        rw [described_eq, described_eq, hkind, hschema, hinputs, houtputs, hconstant]
        refine .intro rfl rfl rfl rfl rfl (by simpa using hcount) fun k r s hr hs => ?_
        obtain ⟨b', hb', rfl⟩ := Option.map_eq_some_iff.mp (List.getElem?_map.symm.trans hr)
        obtain ⟨c', hc', rfl⟩ := Option.map_eq_some_iff.mp (List.getElem?_map.symm.trans hs)
        have hbmem := List.mem_of_getElem? hb'
        have hcmem := List.mem_of_getElem? hc'
        exact ih n hn b' hbmem (hregions k b' c' hb' hc') (hb.inner hn hbmem) (hc.inner hm hcmem)
      have hcaptures : (c.describedBlock names).captures.Perm (b.describedBlock names).captures :=
        h.perm_captures hb hc
      obtain ⟨hinputs, houtputs, horder, hcount, hcontents⟩ := h
      rw [describedBlock_eq, describedBlock_eq] at hcaptures ⊢
      refine .intro ?_ ?_ hcaptures ?_ ?_ fun j p d e hp hd he => ?_
      · exact congrArg (List.map (Decoded.Value.of names)) hinputs
      · exact congrArg (List.map (Decoded.Value.of names)) houtputs
      · simpa only [Decoded.Region.of, List.length_map] using horder
      · simpa only [Decoded.Region.of, List.length_map] using hcount
      · obtain ⟨n, hn, rfl⟩ := Option.map_eq_some_iff.mp (List.getElem?_map.symm.trans hd)
        obtain ⟨m, hm, rfl⟩ := Option.map_eq_some_iff.mp (List.getElem?_map.symm.trans he)
        apply hnode n m (List.mem_of_getElem? hn) (List.mem_of_getElem? hm)
        exact hcontents j p n m hp hn hm

end Node

namespace View

variable {o : Nat → Reordering} {n m : Node} {names : TypeNames}

/-- A reordered graph is decoded or refused as before, in topological order or not: what is
produced in it stays the same. -/
theorem exists_decode_eq_ok_iff_of_reordered (h : n.Reordered o m) :
    (∃ g, (⟨n, names⟩ : View).decode = .ok g) ↔ ∃ g, (⟨m, names⟩ : View).decode = .ok g := by
  have hcounts : (⟨n, names⟩ : View).regionCount = (⟨m, names⟩ : View).regionCount := by
    obtain ⟨_, _, _, _, hcount, _⟩ := h
    rw [regionCount_eq, regionCount_eq, hcount]
  by_cases hn : (⟨n, names⟩ : View).regionCount = 1
  · have hm : (⟨m, names⟩ : View).regionCount = 1 := hcounts.symm.trans hn
    obtain ⟨b, hb⟩ := exists_regions_of_regionCount_eq_one hn
    obtain ⟨c, hc⟩ := exists_regions_of_regionCount_eq_one hm
    obtain ⟨_, _, _, _, _, hregions⟩ := h
    have hb0 : n.regions[0]? = some b := by rw [hb]; rfl
    have hc0 : m.regions[0]? = some c := by rw [hc]; rfl
    rw [exists_decode_eq_ok_iff hn, exists_decode_eq_ok_iff hm, map_value_productions hb0,
      map_value_productions hc0]
    exact (hregions 0 b c hb0 hc0).perm_bindings.nodup_iff
  · have hm : (⟨m, names⟩ : View).regionCount ≠ 1 := fun hm => hn (hcounts.trans hm)
    simp [decode, hn, hm]

/-- Graphs that differ only by the order of nodes are decoded together.  If both orders are
topological, what they are decoded to differs by that order and the order of captures, and every
region captures what is used in it and bound nowhere in it. -/
theorem decode_of_reordered (h : n.Reordered o m) (names : TypeNames) :
    ((∃ g, (⟨n, names⟩ : View).decode = .ok g) ↔
      ∃ g, (⟨m, names⟩ : View).decode = .ok g) ∧
    ((∀ b ∈ n.regions, b.Ordered) → (∀ b ∈ m.regions, b.Ordered) → ∀ g g',
      (⟨n, names⟩ : View).decode = .ok g → (⟨m, names⟩ : View).decode = .ok g' →
        g'.kind = g.kind ∧ g.body.Reordered (o 0) g'.body ∧
        ∀ r : Decoded.Region, r.Within g.body ∨ r.Within g'.body → r.CapturesUnbound) := by
  refine ⟨exists_decode_eq_ok_iff_of_reordered h, fun hn hm g g' hg hg' => ?_⟩
  obtain ⟨b, hb, rfl, _⟩ := exists_region_of_decode_eq_ok hg
  obtain ⟨c, hc, rfl, _⟩ := exists_region_of_decode_eq_ok hg'
  obtain ⟨hkind, _, _, _, _, hregions⟩ := h
  have hbc := hregions 0 b c (by rw [hb]; rfl) (by rw [hc]; rfl)
  replace hb := hn b (by rw [hb]; exact List.mem_singleton_self b)
  replace hc := hm c (by rw [hc]; exact List.mem_singleton_self c)
  refine ⟨hkind, hbc.describedBlock hb hc, fun r hr => ?_⟩
  -- Either way the region describes a block inside, where the order is topological as well.
  have hinner (b : Node) (hb : b.Ordered) : ∀ n ∈ b.contents, ∀ c ∈ n.regions, c.Ordered :=
    fun _ hn _ hc => hb.inner hn hc
  obtain ⟨d, hd, rfl⟩ : ∃ d : Node, d.Ordered ∧ r = d.describedBlock names := by
    rcases hr with hr | hr
    · exact Node.exists_inner_of_within_describedBlock hinner hb hr
    · exact Node.exists_inner_of_within_describedBlock hinner hc hr
  exact hd.capturesUnbound

/-- A node beside a loop, and two nodes in the loop that use `%0` and `%1` from outside. -/
def pairing (pair : Node → Node → List Node) : Node :=
  let value (n : UInt64) : Value := { id := ⟨n⟩, type := .unknownTensor }
  let relu : Node := { kind := "aten::relu", inputs := [value 0], outputs := [value 2] }
  let neg : Node := { kind := "aten::neg", inputs := [value 0], outputs := [value 3] }
  let abs : Node := { kind := "aten::abs", inputs := [value 1], outputs := [value 4] }
  let block : Node :=
    { kind := Kind.block, outputs := [value 3, value 4], body := some (pair neg abs) }
  let loop : Node := { kind := "prim::Loop", outputs := [value 5], blocks := [block] }
  { kind := Kind.graph, inputs := [value 0, value 1], outputs := [value 5, value 2],
    body := some (pair relu loop) }

theorem reordered_pairing :
    (pairing fun a b => [a, b]).Reordered (fun _ _ => [1, 0]) (pairing fun a b => [b, a]) := by
  refine .of_region rfl rfl ⟨rfl, rfl, rfl, rfl⟩ ?_
  refine .swap rfl rfl rfl ⟨rfl, rfl⟩ (.of_leaf rfl) ?_
  refine .of_region rfl rfl ⟨rfl, rfl, rfl, rfl⟩ ?_
  exact .swap rfl rfl rfl ⟨rfl, rfl⟩ (.of_leaf rfl) (.of_leaf rfl)

theorem ordered_pairing {pair : Node → Node → List Node}
    (hpair : pair = (fun a b => [a, b]) ∨ pair = fun a b => [b, a]) :
    ∀ b ∈ (pairing pair).regions, b.Ordered := by
  have hinner {n m : Node} {bs : List Node} (h : n.regions ++ m.regions = bs)
      (hbs : ∀ b ∈ bs, b.Ordered) : ∀ k ∈ [n, m], ∀ c ∈ k.regions, c.Ordered := by
    subst h
    intro k hk c hc
    apply hbs c
    rcases List.mem_pair.mp hk with rfl | rfl
    · exact List.mem_append_left _ hc
    · exact List.mem_append_right _ hc
  intro b hb
  obtain rfl := List.mem_singleton.mp hb
  rcases hpair with rfl | rfl
  all_goals
    refine Node.ordered_of_pairwise .empty (by decide) (by decide) (hinner rfl fun c hc => ?_)
    obtain rfl := List.mem_singleton.mp hc
    exact Node.ordered_of_pairwise .empty (by decide) (by decide) (hinner rfl nofun)

/-- The captures of the regions of the nodes in a graph. -/
def innerCaptures (g : Decoded.Graph) : List (List ValueId) :=
  g.body.nodes.flatMap fun n => n.regions.map Decoded.Region.captures

theorem decode_of_reordered_pairing :
    ∃ g g', (⟨pairing fun a b => [a, b], .empty⟩ : View).decode = .ok g ∧
      (⟨pairing fun a b => [b, a], .empty⟩ : View).decode = .ok g' ∧
      (g'.kind = g.kind ∧ g.body.Reordered (fun _ => [1, 0]) g'.body ∧
        ∀ r : Decoded.Region, r.Within g.body ∨ r.Within g'.body → r.CapturesUnbound) ∧
      innerCaptures g = [[⟨0⟩, ⟨1⟩]] ∧ innerCaptures g' = [[⟨1⟩, ⟨0⟩]] := by
  have h : (⟨pairing fun a b => [a, b], .empty⟩ : View).decode =
      .ok ⟨Kind.graph, (pairing fun a b => [a, b]).describedBlock .empty⟩ := by
    rw [decode_of_regions (show (pairing fun a b => [a, b]).regions = [_] from rfl)]
    rfl
  have h' : (⟨pairing fun a b => [b, a], .empty⟩ : View).decode =
      .ok ⟨Kind.graph, (pairing fun a b => [b, a]).describedBlock .empty⟩ := by
    rw [decode_of_regions (show (pairing fun a b => [b, a]).regions = [_] from rfl)]
    rfl
  have hordered := ordered_pairing (.inl rfl)
  have hordered' := ordered_pairing (.inr rfl)
  exact ⟨_, _, h, h',
    (decode_of_reordered reordered_pairing .empty).2 hordered hordered' _ _ h h', rfl, rfl⟩

end View

end OpGraph
