import OpGraph.Proofs.Descendants
import OpGraph.Proofs.RegionQueries

/-!
# Exploring a region

A visitor that notes a child, may stop at it, and else goes on to the regions of the child notes the
descendants of a region in pre-order.  It stops at the first one that the check does not pass, with
the nodes up to that one noted and the way down to it in the fault.
-/

namespace OpGraph

namespace View

/-! ## Touring a list -/

/-- Notes descendants in turn, up to the first that the check stops at. -/
def tour (check : List View → View → Except Fault Unit) :
    List Descendant → List View → Except Fault Unit × List View
  | [], noted => (.ok (), noted)
  | d :: rest, noted =>
      match check noted d.view with
      | .ok () => tour check rest (noted ++ [d.view])
      | .error e => (.error (d.fault e), noted ++ [d.view])

variable {check : List View → View → Except Fault Unit}

theorem tour_append (ds es : List Descendant) (noted : List View) :
    tour check (ds ++ es) noted =
      match tour check ds noted with
      | (.ok (), after) => tour check es after
      | (.error e, after) => (.error e, after) := by
  induction ds generalizing noted with
  | nil => rfl
  | cons d ds ih =>
      simp only [List.cons_append, tour]
      cases check noted d.view with
      | ok => exact ih _
      | error e => rfl

theorem tour_within (s : Step) (ds : List Descendant) (noted : List View) :
    tour check (ds.map (Descendant.within s)) noted =
      ((tour check ds noted).1.mapError (Fault.within s), (tour check ds noted).2) := by
  induction ds generalizing noted with
  | nil => rfl
  | cons d ds ih =>
      simp only [List.map_cons, tour, Descendant.within_view]
      cases check noted d.view with
      | ok => exact ih _
      | error e => rfl

/-- The check passes the first `m` descendants, each with those before it noted. -/
def Passes (check : List View → View → Except Fault Unit) (ds : List Descendant) (m : Nat) :
    Prop :=
  ∀ k < m, ∀ d, ds[k]? = some d → check ((ds.take k).map Descendant.view) d.view = .ok ()

theorem tour_eq_of_passes {ds : List Descendant} {m : Nat} (hm : m ≤ ds.length)
    (h : Passes check ds m) :
    tour check ds [] = tour check (ds.drop m) ((ds.take m).map Descendant.view) := by
  induction m with
  | zero => rfl
  | succ m ih =>
      have hd := h m (Nat.lt_succ_self m) ds[m] (List.getElem?_eq_getElem hm)
      rw [ih (Nat.le_of_succ_le hm) fun k hk => h k (Nat.lt_succ_of_lt hk),
        List.drop_eq_getElem_cons hm, tour, hd, List.take_succ_eq_append_getElem hm,
        List.map_append]
      rfl

/-! ## Touring actions -/

/-- Whatever was noted before, the action goes through some descendants in turn. -/
def Tours (check : List View → View → Except Fault Unit) (act : Visit (List View) Unit)
    (ds : List Descendant) : Prop :=
  ∀ noted, act.run.run noted = tour check ds noted

namespace Tours

variable {act : Visit (List View) Unit} {k : Unit → Visit (List View) Unit}
  {ds es : List Descendant}

theorem pure : Tours check (Pure.pure ()) [] := fun _ => rfl

theorem bind (h : Tours check act ds) (hk : Tours check (k ()) es) :
    Tours check (act >>= k) (ds ++ es) := by
  intro noted
  rw [Visit.run_bind, h, tour_append]
  rcases tour check ds noted with ⟨_ | _, after⟩
  · rfl
  · exact hk after

theorem adapt (s : Step) (h : Tours check act ds) :
    Tours check (ExceptT.adapt (Fault.within s) act) (ds.map (Descendant.within s)) := by
  intro noted
  rw [Visit.run_adapt, h, tour_within]

theorem visitFrom {kind : String} {index : Nat} {names : TypeNames}
    {visitor : View → Visit (List View) Unit} {ns : List Node} (position : Nat)
    (h : ∀ n ∈ ns, Tours check (visitor ⟨n, names⟩) (⟨[], n, names⟩ :: n.descendants names)) :
    Tours check
      (View.visitFrom kind index (ns.map fun n => ⟨n, names⟩) (fun c _ => visitor c) position)
      (contentsDescendants names kind index position ns) := by
  induction ns generalizing position with
  | nil => exact .pure
  | cons n ns ih =>
      have hn := (h n List.mem_cons_self).adapt ⟨kind, index, position⟩
      have hns := ih (position + 1) fun m hm => h m (List.mem_cons_of_mem _ hm)
      exact hn.bind (k := fun _ => View.visitFrom _ _ _ _ _) hns

theorem visitChildren {v : View} {index : Nat} {b : Node} {visitor : View → Visit (List View) Unit}
    (hb : v.node.regions[index]? = some b)
    (h : ∀ n ∈ b.contents,
      Tours check (visitor ⟨n, v.names⟩) (⟨[], n, v.names⟩ :: n.descendants v.names)) :
    Tours check (v.visitChildren index fun c _ => visitor c)
      (b.blockDescendants v.names v.kind index) := by
  have hregion : v.region index = .ok ⟨b, v.names⟩ := by rw [region_eq, hb]
  rw [visitChildren_eq (children_eq hregion), Node.blockDescendants_eq]
  exact visitFrom 0 h

theorem forM_regions {v : View} {visitor : Nat → Visit (List View) Unit} (bs : List Node)
    (index : Nat)
    (h : ∀ i b, bs[i]? = some b → Tours check (visitor (index + i))
      (b.blockDescendants v.names v.kind (index + i))) :
    Tours check ((List.range' index bs.length).forM visitor)
      (blocksDescendants v.names v.kind index bs) := by
  induction bs generalizing index with
  | nil => exact .pure
  | cons b bs ih =>
      have hb := h 0 b rfl
      have hbs := ih (index + 1) fun i c hc => by
        simpa only [Nat.add_right_comm, Nat.add_assoc] using h (i + 1) c hc
      exact hb.bind (k := fun _ => (List.range' (index + 1) bs.length).forM visitor) hbs

end Tours

/-- Noting a view and then going on notes the view first of all. -/
theorem run_note (v : View) (act : Visit (List View) Unit) (noted : List View) :
    (do
      let before ← get
      set (before ++ [v])
      liftExcept (check before v)
      act : Visit (List View) Unit).run.run noted =
        match check noted v with
        | .ok () => act.run.run (noted ++ [v])
        | .error e => (.error e, noted ++ [v]) := by
  have hget : (get : Visit (List View) (List View)).run.run noted = (.ok noted, noted) := rfl
  have hset : (set (noted ++ [v]) : Visit (List View) PUnit).run.run noted =
      (.ok ⟨⟩, noted ++ [v]) := rfl
  simp only [Visit.run_bind, hget, hset]
  cases check noted v <;> rfl

/-- Exploring goes through a view and all its descendants. -/
theorem tours_explore (v : View) :
    Tours check (explore check true v) (⟨[], v⟩ :: v.node.descendants v.names) := by
  have hregion (i : Nat) (b : Node) (hb : v.node.regions[i]? = some b) :
      Tours check (v.visitChildren i fun c _ => explore check true c)
        (b.blockDescendants v.names v.kind i) :=
    .visitChildren hb fun n hn => tours_explore ⟨n, v.names⟩
  have hregions : Tours check
      ((List.range v.regionCount).forM fun i => v.visitChildren i fun c _ => explore check true c)
      (v.node.descendants v.names) := by
    rw [Node.descendants_eq, regionCount_eq, List.range_eq_range']
    refine .forM_regions v.node.regions 0 fun i b hb => ?_
    rw [Nat.zero_add]
    exact hregion i b hb
  intro noted
  rw [explore, run_note, tour]
  cases check noted v with
  | error e => rfl
  | ok => exact hregions _
termination_by sizeOf v.node
decreasing_by exact Node.sizeOf_lt_of_mem_region (List.mem_of_getElem? hb) hn

theorem run_visit_explore {v : View} {index : Nat} (h : index < v.regionCount) :
    (v.visit index (explore check true)).run.run [] = tour check (v.descendants index) [] := by
  rw [regionCount_eq] at h
  have hb := List.getElem?_eq_getElem h
  rw [descendants_eq hb]
  exact Tours.visitChildren hb (fun n _ => tours_explore ⟨n, v.names⟩) []

/-- Out of range nothing is noted and the fault is that of the query.  Within range the
descendants of the region, which are all that ways down through it lead to, are noted in pre-order:
all of them if the check passes them, and otherwise those up to the first that it stops at, which
the path of the fault leads down to. -/
theorem visit_explore (check : List View → View → Except Fault Unit) (v : View) (index : Nat) :
    let ds := v.descendants index
    let run := (v.visit index (explore check true)).run.run []
    (∀ d, d ∈ ds ↔
      (∃ position path, d.path = ⟨v.kind, index, position⟩ :: path) ∧ v.Leads d.path d.view) ∧
    (v.regionCount ≤ index →
      run = (.error (.regionOutOfRange v.kind index v.regionCount), [])) ∧
    (index < v.regionCount → Passes check ds ds.length →
      run = (.ok (), ds.map Descendant.view)) ∧
    ∀ m d e, index < v.regionCount → Passes check ds m → ds[m]? = some d →
      check ((ds.take m).map Descendant.view) d.view = .error e →
        ∃ f, run = (.error f, (ds.take (m + 1)).map Descendant.view) ∧
          f.path = d.path ++ e.path ∧ f.root = e.root := by
  refine ⟨fun _ => mem_descendants_iff, fun h => run_visit_of_regionCount_le h _ _,
    fun h hall => ?_, fun m d e h hm hd he => ?_⟩
  · rw [run_visit_explore h, tour_eq_of_passes (Nat.le_refl _) hall, List.drop_length,
      List.take_length, tour]
  · obtain ⟨hlt, rfl⟩ := List.getElem?_eq_some_iff.mp hd
    refine ⟨(v.descendants index)[m].fault e, ?_, Descendant.path_fault _ _,
      Descendant.root_fault _ _⟩
    rw [run_visit_explore h, tour_eq_of_passes (Nat.le_of_lt hlt) hm,
      List.drop_eq_getElem_cons hlt, tour, he, List.take_succ_eq_append_getElem hlt,
      List.map_append]
    rfl

/-- A loop around one node, between a constant and another node. -/
def stacked : View :=
  let relu : Node := { kind := "aten::relu" }
  let block : Node := { kind := Kind.block, body := some [relu] }
  ⟨{ kind := Kind.graph, body := some [{ kind := Kind.constant },
      { kind := "prim::Loop", blocks := [block] }, { kind := "aten::linear" }] }, .empty⟩

/-- Stops at the third view, with a fault from further down. -/
def stopAtThird (noted : List View) (c : View) : Except Fault Unit :=
  if noted.length = 2 then .error (.inRegion c.kind 4 5 (.custom "stop")) else .ok ()

theorem visit_explore_stacked :
    0 < stacked.regionCount ∧ Passes stopAtThird (stacked.descendants 0) 2 ∧
      ∃ f, (stacked.visit 0 (explore stopAtThird true)).run.run [] =
          (.error f, ((stacked.descendants 0).take 3).map Descendant.view) ∧
        f.path = [⟨Kind.graph, 0, 1⟩, ⟨"prim::Loop", 0, 0⟩, ⟨"aten::relu", 4, 5⟩] ∧
        f.root = .custom "stop" := by
  have hcount : 0 < stacked.regionCount := Nat.zero_lt_one
  have hpasses : Passes stopAtThird (stacked.descendants 0) 2 := by
    rintro (_ | _ | k) hk d hd
    · rfl
    · cases hd
      rfl
    · omega
  exact ⟨hcount, hpasses,
    (visit_explore stopAtThird stacked 0).2.2.2 2 _ _ hcount hpasses rfl rfl⟩

end View

end OpGraph
