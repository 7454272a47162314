import OpGraph.Proofs.Walk

/-!
# Queries of regions

The number of regions, the block behind a region and the visit of its nodes are each settled by what
a node says of its body and its blocks.  Whatever it says, the three agree: on which indices there
are, and on what stands in a region.
-/

namespace OpGraph

namespace View

variable {σ : Type} {v block : View} {index : Nat}

/-! ## Blocks -/

theorem exists_region_eq_ok_iff (v : View) (index : Nat) :
    (∃ block, v.region index = .ok block) ↔ index < v.regionCount := by
  rw [region_eq, regionCount_eq]
  constructor
  · rintro ⟨block, h⟩
    by_contra hle
    rw [List.getElem?_eq_none (Nat.le_of_not_lt hle)] at h
    cases h
  · intro h
    rw [List.getElem?_eq_getElem h]
    exact ⟨_, rfl⟩

theorem region_eq_error_of_le (h : v.regionCount ≤ index) :
    v.region index = .error (.regionOutOfRange v.kind index v.regionCount) := by
  rw [region_eq, List.getElem?_eq_none (by rwa [← regionCount_eq])]

theorem region_eq_ok_iff :
    v.region index = .ok block ↔
      v.node.regions[index]? = some block.node ∧ block.names = v.names := by
  obtain ⟨b, names⟩ := block
  rw [region_eq]
  cases v.node.regions[index]? with
  | none => simp
  | some c => simp [eq_comm]

/-- A view with a body is the block of its own region. -/
theorem region_zero_of_body (h : v.node.body.isSome) : v.region 0 = .ok v := by
  obtain ⟨contents, hbody⟩ := Option.isSome_iff_exists.mp h
  rw [region, hbody]
  rfl

/-! ## Visits -/

/-- Calls a visitor on views in turn.  The first one that it fails on ends this, with its position
and the fault. -/
def deliver (visitor : View → Visit σ Unit) :
    List View → (position : Nat) → σ → Except (Nat × Fault) Unit × σ
  | [], _, s => (.ok (), s)
  | c :: cs, position, s =>
      match (visitor c).run.run s with
      | (.ok (), t) => deliver visitor cs (position + 1) t
      | (.error e, t) => (.error (position, e), t)

/-- A fault met at a position in a region, as the owner of the region reports it. -/
def located (v : View) (index : Nat) (met : Nat × Fault) : Fault :=
  .within ⟨v.kind, index, met.1⟩ met.2

theorem run_visitFrom (visitor : View → Visit σ Unit) (cs : List View) (position : Nat) (s : σ) :
    (visitFrom v.kind index cs (fun c _ => visitor c) position).run.run s =
      ((deliver visitor cs position s).1.mapError (v.located index),
        (deliver visitor cs position s).2) := by
  induction cs generalizing position s with
  | nil => rfl
  | cons c cs ih =>
      rw [visitFrom, Visit.run_bind, Visit.run_adapt, deliver]
      rcases (visitor c).run.run s with ⟨e | _, t⟩
      · rfl
      · exact ih (position + 1) t

theorem run_visit (h : v.region index = .ok block) (visitor : View → Visit σ Unit) (s : σ) :
    let cs := block.node.contents.map fun n => ⟨n, v.names⟩
    (v.visit index visitor).run.run s =
      ((deliver visitor cs 0 s).1.mapError (v.located index), (deliver visitor cs 0 s).2) := by
  intro cs
  have hvisit : v.visit index visitor = visitFrom v.kind index cs (fun c _ => visitor c) 0 :=
    visitChildren_eq (children_eq h) visitor
  rw [hvisit, run_visitFrom]

theorem run_visit_of_regionCount_le (h : v.regionCount ≤ index) (visitor : View → Visit σ Unit)
    (s : σ) :
    (v.visit index visitor).run.run s =
      (.error (.regionOutOfRange v.kind index v.regionCount), s) := by
  have hchildren : v.children index = .error (.regionOutOfRange v.kind index v.regionCount) := by
    rw [children, region_eq_error_of_le h]
    rfl
  unfold visit visitChildren
  split
  · rename_i cs hcs
    cases hcs.symm.trans hchildren
  · rename_i e he
    obtain rfl := Except.error.inj (he.symm.trans hchildren)
    rfl

/-- A visitor that notes whom it is called on, and otherwise does what another one does. -/
def noting (visitor : View → Visit σ Unit) (c : View) : Visit (List View × σ) Unit :=
  ExceptT.mk fun (noted, s) =>
    let (result, s) := (visitor c).run.run s
    (result, noted ++ [c], s)

/-- The views that a visit calls the visitor on, in their order. -/
def called (v : View) (index : Nat) (visitor : View → Visit σ Unit) (s : σ) : List View :=
  ((v.visit index (noting visitor)).run.run ([], s)).2.1

/-- Whatever a view has, body or blocks, there is a block for each index below the number of regions
and for no other; beyond, every query gives the same fault and the visitor is never called.  A visit
of a region is the block's visit of itself, but for the place that a fault names, and it visits
nothing if the block has no body. -/
theorem region_queries_agree (v : View) (index : Nat) (visitor : View → Visit σ Unit) (s : σ) :
    ((∃ block, v.region index = .ok block) ↔ index < v.regionCount) ∧
    (v.regionCount ≤ index →
      v.region index = .error (.regionOutOfRange v.kind index v.regionCount) ∧
      (v.visit index visitor).run.run s =
        (.error (.regionOutOfRange v.kind index v.regionCount), s) ∧
      v.called index visitor s = []) ∧
    ∀ block, v.region index = .ok block →
      (block.node.body.isSome →
        v.called index visitor s = block.called 0 visitor s ∧
        ∃ (result : Except (Nat × Fault) Unit) (t : σ),
          (v.visit index visitor).run.run s = (result.mapError (v.located index), t) ∧
          (block.visit 0 visitor).run.run s = (result.mapError (block.located 0), t)) ∧
      (block.node.body = none →
        (v.visit index visitor).run.run s = (.ok (), s) ∧ v.called index visitor s = []) := by
  refine ⟨exists_region_eq_ok_iff v index, fun h => ⟨region_eq_error_of_le h, ?_, ?_⟩,
    fun block hblock => ⟨fun hbody => ?_, fun hbody => ?_⟩⟩
  · exact run_visit_of_regionCount_le h visitor s
  · rw [called, run_visit_of_regionCount_le h]
  · obtain ⟨_, hnames⟩ := region_eq_ok_iff.mp hblock
    have hzero := region_zero_of_body hbody
    -- Both visits deliver the same views, and only tell a different owner.
    refine ⟨?_, _, _, run_visit hblock visitor s, ?_⟩
    · rw [called, called, run_visit hblock, run_visit hzero, hnames]
    · rw [run_visit hzero, hnames]
  · have hcontents : block.node.contents = [] := by
      rw [Node.contents, hbody, Option.getD_none]
    rw [called, run_visit hblock, run_visit hblock, hcontents]
    exact ⟨rfl, rfl⟩

/-- Three regions: one with a body and stray blocks besides, one empty, one that says nothing of its
nodes. -/
def threefold : View :=
  let relu : Node := { kind := "aten::relu" }
  let linear : Node := { kind := "aten::linear" }
  ⟨{ kind := "prim::If",
     blocks := [{ kind := Kind.block, blocks := [relu], body := some [linear, relu, linear] },
       { kind := Kind.block, body := some [] }, { kind := Kind.block, blocks := [relu] }] }, .empty⟩

/-- Counts the views it is called on, and fails on the second. -/
def failSecond (c : View) : Visit Nat Unit := do
  let count ← get
  set (count + 1)
  if count = 1 then throw (.custom c.kind)

theorem region_queries_threefold :
    (threefold.regionCount ≤ 3 ∧ threefold.called 3 failSecond 0 = []) ∧
    (∃ block, threefold.region 0 = .ok block ∧ block.node.body.isSome ∧
      (threefold.called 0 failSecond 0).map kind = ["aten::linear", "aten::relu"] ∧
      threefold.called 0 failSecond 0 = block.called 0 failSecond 0 ∧
      ∃ (result : Except (Nat × Fault) Unit) (t : Nat),
        (threefold.visit 0 failSecond).run.run 0 = (result.mapError (threefold.located 0), t) ∧
        (block.visit 0 failSecond).run.run 0 = (result.mapError (block.located 0), t)) ∧
    ∃ block, threefold.region 2 = .ok block ∧ block.node.body = none ∧
      (threefold.visit 2 failSecond).run.run 0 = (.ok (), 0) ∧
      threefold.called 2 failSecond 0 = [] := by
  have hpast : threefold.regionCount ≤ 3 := by decide
  refine ⟨⟨hpast, ((region_queries_agree threefold 3 failSecond 0).2.1 hpast).2.2⟩, ?_, ?_⟩
  · refine ⟨_, rfl, by decide, by decide, ?_⟩
    exact ((region_queries_agree threefold 0 failSecond 0).2.2 _ rfl).1 (by decide)
  · refine ⟨_, rfl, rfl, ?_⟩
    exact ((region_queries_agree threefold 2 failSecond 0).2.2 _ rfl).2 rfl

end View

end OpGraph
