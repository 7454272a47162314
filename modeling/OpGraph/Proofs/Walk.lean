import OpGraph.Proofs.Description
import OpGraph.Proofs.Outcome
import OpGraph.Proofs.Production

/-!
# What decoding does

Decoding a node records the productions below it and gives its description; it fails at the first
identity that is recorded twice, and no query of a view ever fails on the way.
-/

namespace OpGraph

open View.Visit

namespace View

/-! ## Queries by index -/

theorem mapM_range_eq_ok {ε α β : Type} {l : List α} {f : Nat → Except ε β} {g : α → β}
    (h : ∀ i x, l[i]? = some x → f i = .ok (g x)) :
    (List.range l.length).mapM f = .ok (l.map g) := by
  induction l generalizing f with
  | nil => rfl
  | cons x xs ih =>
      have hx : f 0 = .ok (g x) := h 0 x rfl
      have hxs : (List.range xs.length).mapM (f ∘ Nat.succ) = .ok (xs.map g) :=
        ih fun i y hy => h (i + 1) y hy
      rw [List.length_cons, List.range_succ_eq_map, List.mapM_cons, List.mapM_map, hx, hxs]
      rfl

theorem value_eq_ok {v : View} {slot : Slot} {index : Nat} {x : Value}
    (h : (v.values slot)[index]? = some x) : v.value slot index = .ok x := by
  rw [value, h]

theorem decodedInputs_eq (v : View) :
    v.decodedInputs = .ok (v.node.inputs.map (.of v.names)) := by
  refine mapM_range_eq_ok (l := v.node.inputs) fun index x hx => ?_
  have hvalue : v.value .input index = .ok x := value_eq_ok hx
  have habsent : v.inputAbsent index = x.absent := by simp [inputAbsent, hx]
  simp only [id, shape, element, hvalue, habsent]
  rfl

theorem decodedOutputs_eq (v : View) :
    v.decodedOutputs = .ok (v.node.outputs.map (.of v.names)) := by
  refine mapM_range_eq_ok (l := v.node.outputs) fun index x hx => ?_
  have hvalue : v.value .output index = .ok x := value_eq_ok hx
  rw [hvalue]
  rfl

end View

/-! ## Recording actions -/

/-- From wherever it starts, the action records some productions and then gives a value. -/
def Records {α : Type} (act : Walk α) (ps : List Production) (a : α) : Prop :=
  ∀ produced, outcome act produced = (recordAll ps produced).map fun t => (a, t)

namespace Records

variable {α β : Type} {act : Walk α} {f : α → Walk β} {ps qs : List Production} {a : α} {b : β}

theorem pure (a : α) : Records (Pure.pure a) [] a := fun _ => rfl

theorem bind (h : Records act ps a) (hf : Records (f a) qs b) :
    Records (act >>= f) (ps ++ qs) b := by
  intro produced
  rw [outcome_bind, h, recordAll_append]
  cases recordAll ps produced with
  | error e => rfl
  | ok t => exact hf t

theorem liftExcept_bind {x : Except Fault α} (hx : x = .ok a) (hf : Records (f a) qs b) :
    Records (liftExcept x >>= f) qs b := by
  intro produced
  rw [outcome_bind, outcome_liftExcept, hx]
  exact hf produced

theorem produce (kind : String) (id : ValueId) :
    Records (OpGraph.produce kind id) [⟨[], kind, id⟩] ⟨⟩ := by
  intro produced
  unfold OpGraph.produce
  rw [outcome_bind, outcome_get]
  by_cases h : id ∈ produced
  · simp only [Except.bind, h, if_true, recordAll]
    rfl
  · simp only [Except.bind, h, if_false, recordAll]
    rfl

theorem forM_produce (kind : String) (ids : List ValueId) :
    Records (ids.forM (OpGraph.produce kind)) (Production.ofIds kind ids) ⟨⟩ := by
  induction ids with
  | nil => exact pure _
  | cons id ids ih => exact bind (f := fun _ => ids.forM _) (produce kind id) ih

end Records

/-! ## Inside a region -/

namespace Scope

variable {α : Type}

theorem outcome_outer (act : Walk α) (produced : List ValueId) (s : Scope) :
    outcome (outer act) (produced, s) =
      (outcome act produced).map fun r => (r.1, r.2, s) := by
  have hrun : (outer act).run.run (produced, s) =
      ((act.run.run produced).1, (act.run.run produced).2, s) := rfl
  unfold outcome
  rw [hrun]
  rcases act.run.run produced with ⟨a | e, t⟩ <;> rfl

theorem outcome_enter (parameters : List ValueId) (act : Act Unit) (produced : List ValueId) :
    outcome (enter parameters act) produced =
      (outcome act (produced, { locals := parameters })).map fun r => (r.2.2, r.2.1) := by
  have hrun : (enter parameters act).run.run produced =
      ((act.run.run (produced, { locals := parameters })).1.map fun () =>
        (act.run.run (produced, { locals := parameters })).2.2,
        (act.run.run (produced, { locals := parameters })).2.1) := rfl
  unfold outcome
  rw [hrun]
  rcases act.run.run (produced, { locals := parameters }) with ⟨a | e, t⟩ <;> rfl

/-- The action records some productions and changes whatever region it is in. -/
def Takes (act : Act Unit) (ps : List Production) (f : Scope → Scope) : Prop :=
  ∀ produced s, outcome act (produced, s) = (recordAll ps produced).map fun t => (⟨⟩, t, f s)

namespace Takes

variable {act : Act Unit} {k : Unit → Act Unit} {walk : Walk α} {rest : α → Act Unit}
  {ps qs : List Production} {f g : Scope → Scope} {a : α}

theorem pure : Takes (Pure.pure ⟨⟩) [] id := fun _ _ => rfl

theorem change (f : Scope → Scope) : Takes (change f) [] f := fun _ _ => rfl

theorem bind (h : Takes act ps f) (hn : Takes (k ⟨⟩) qs g) :
    Takes (act >>= k) (ps ++ qs) (g ∘ f) := by
  intro produced s
  rw [outcome_bind, h, recordAll_append]
  cases recordAll ps produced with
  | error e => rfl
  | ok t => exact hn t (f s)

theorem outer_bind (h : Records walk ps a) (hn : Takes (rest a) qs g) :
    Takes (outer walk >>= rest) (ps ++ qs) g := by
  intro produced s
  rw [outcome_bind, outcome_outer, h, recordAll_append]
  cases recordAll ps produced with
  | error e => rfl
  | ok t => exact hn t s

theorem adapt (st : Step) (h : Takes act ps f) :
    Takes (ExceptT.adapt (Fault.within st) act) (ps.map (Production.within st)) f := by
  intro produced s
  rw [outcome_adapt, h, recordAll_within]
  cases recordAll ps produced <;> rfl

end Takes

def after (s : Scope) (n : Decoded.Node) : Scope :=
  { locals := (Decoded.ids n.outputs).reverse ++ s.locals
    captures := Decoded.addCaptures s.locals s.captures n.uses
    nodes := s.nodes ++ [n] }

theorem takes_outputs (kind : String) (ids : List ValueId) :
    Takes (ids.forM fun id => do outer (produce kind id); change (own id))
      (Production.ofIds kind ids) fun s => { s with locals := ids.reverse ++ s.locals } := by
  induction ids with
  | nil => exact .pure
  | cons id ids ih =>
      have hid : Takes (do outer (produce kind id); change (own id)) [⟨[], kind, id⟩] (own id) :=
        .outer_bind (Records.produce kind id) (.change _)
      have hall := hid.bind (k := fun _ => ids.forM _) ih
      have hlocals : ((fun s : Scope => { s with locals := ids.reverse ++ s.locals }) ∘ own id) =
          fun s => { s with locals := (id :: ids).reverse ++ s.locals } := by
        funext s
        simp [own]
      rw [← hlocals]
      exact hall

theorem takes_add (n : Decoded.Node) :
    Takes (add n) (Production.ofIds n.kind (Decoded.ids n.outputs)) (after · n) := by
  have h := (Takes.change (use n.uses)).bind (k := fun _ => _)
    ((takes_outputs n.kind (Decoded.ids n.outputs)).bind (k := fun _ => _)
      (.change (keep n)))
  rw [List.nil_append, List.append_nil] at h
  exact h

theorem takes_visitFrom {kind : String} {index : Nat} {names : TypeNames} {f : View → Act Unit}
    {ns : List Node} (position : Nat)
    (hf : ∀ n ∈ ns, Takes (f ⟨n, names⟩) n.productions (after · (n.described names))) :
    Takes (View.visitFrom kind index (ns.map fun n => ⟨n, names⟩) (fun c _ => f c) position)
      (contentsProductions kind index position ns)
      fun s => (ns.map (Node.described names)).foldl after s := by
  induction ns generalizing position with
  | nil => exact .pure
  | cons n ns ih =>
      have hn := (hf n List.mem_cons_self).adapt ⟨kind, index, position⟩
      have hns := ih (position + 1) fun m hm => hf m (List.mem_cons_of_mem _ hm)
      rw [contentsProductions_cons]
      exact hn.bind (k := fun _ => View.visitFrom _ _ _ _ _) hns

theorem takes_node {v : View} (h : Records v.decodeNode v.node.innerProductions
    (v.node.described v.names)) :
    Takes (do let node ← outer v.decodeNode; add node) v.node.productions
      (after · (v.node.described v.names)) := by
  have hadd := takes_add (v.node.described v.names)
  simp only [Node.described_kind, Node.described_outputs, Decoded.ids_map_of] at hadd
  exact .outer_bind h hadd

theorem foldl_after_nodes (ds : List Decoded.Node) (s : Scope) :
    (ds.foldl after s).nodes = s.nodes ++ ds := by
  induction ds generalizing s with
  | nil => simp
  | cons d ds ih => rw [List.foldl_cons, ih]; simp [after]

theorem foldl_after_captures (ds : List Decoded.Node) (s : Scope) (results : List ValueId) :
    ((ds.foldl after s).use results).captures =
      Decoded.capturesFrom results s.locals s.captures ds := by
  induction ds generalizing s with
  | nil => rfl
  | cons d ds ih => exact ih (s.after d)

end Scope

theorem Records.enter {parameters : List ValueId} {act : Scope.Act Unit} {ps : List Production}
    {f : Scope → Scope} (h : Scope.Takes act ps f) :
    Records (Scope.enter parameters act) ps (f { locals := parameters }) := by
  intro produced
  rw [Scope.outcome_enter, h]
  cases recordAll ps produced <;> rfl

/-! ## Nodes and regions -/

namespace View

theorem children_eq {v block : View} {index : Nat} (h : v.region index = .ok block) :
    v.children index = .ok (block.node.contents.map fun n => ⟨n, v.names⟩) := by
  rw [children, h]
  rfl

theorem visitChildren_eq {σ : Type} {v : View} {index : Nat} {cs : List View}
    (h : v.children index = .ok cs) (f : View → Visit σ Unit) :
    v.visitChildren index (fun c _ => f c) = visitFrom v.kind index cs (fun c _ => f c) 0 := by
  unfold visitChildren
  split
  · rename_i ds hds
    obtain rfl : ds = cs := Except.ok.inj (hds.symm.trans h)
    rfl
  · rename_i e he
    exact absurd (he.symm.trans h) (by simp)

theorem records_decodeRegion {v : View} {index : Nat} {block : Node}
    (hb : v.region index = .ok ⟨block, v.names⟩)
    (hc : ∀ n ∈ block.contents, Records (decodeNode ⟨n, v.names⟩) n.innerProductions
      (n.described v.names)) :
    Records (v.decodeRegion index) (block.blockProductions v.kind index)
      (block.describedBlock v.names) := by
  let f (c : View) : Scope.Act Unit := do
    let node ← Scope.outer c.decodeNode
    Scope.add node
  have hvisit : Scope.Takes (visitFrom v.kind index _ (fun c _ => f c) 0) _ _ :=
    Scope.takes_visitFrom 0 fun n hn => Scope.takes_node (hc n hn)
  have hregion (inputs outputs : List Decoded.Value) (ds : List Decoded.Node) :
      let s := ds.foldl Scope.after { locals := Decoded.ids inputs }
      (⟨inputs, outputs, (s.use (Decoded.ids outputs)).captures, s.nodes⟩ : Decoded.Region) =
        .of inputs outputs ds := by
    simp only [Scope.foldl_after_captures, Scope.foldl_after_nodes]
    rfl
  rw [decodeRegion, Node.blockProductions_eq, Node.describedBlock_eq, ← hregion,
    ← List.append_nil (contentsProductions _ _ _ _), ← Decoded.ids_map_of v.names block.inputs]
  refine .liftExcept_bind hb (.liftExcept_bind (decodedInputs_eq _)
    (.liftExcept_bind (decodedOutputs_eq _) (.bind (.forM_produce _ _) ?_)))
  rw [visitChildren_eq (children_eq hb) f]
  exact .bind (.enter hvisit) (.pure _)

theorem records_regions {v : View} (bs : List Node) (index : Nat)
    (h : ∀ i b, bs[i]? = some b → Records (v.decodeRegion (index + i))
      (b.blockProductions v.kind (index + i)) (b.describedBlock v.names)) :
    Records ((List.range' index bs.length).mapM fun i => v.decodeRegion i)
      (blocksProductions v.kind index bs) (bs.map (Node.describedBlock v.names)) := by
  induction bs generalizing index with
  | nil => exact .pure _
  | cons b bs ih =>
      have hb := h 0 b rfl
      have hbs := ih (index + 1) fun i c hc => by
        simpa only [Nat.add_right_comm, Nat.add_assoc] using h (i + 1) c hc
      rw [List.length_cons, List.range'_succ, List.mapM_cons]
      have hrest := hbs.bind (f := fun rs => pure (b.describedBlock v.names :: rs)) (.pure _)
      rw [List.append_nil] at hrest
      exact .bind hb hrest

theorem records_decodeNode (v : View) :
    Records v.decodeNode v.node.innerProductions (v.node.described v.names) := by
  have hregion (i : Nat) (b : Node) (hb : v.node.regions[i]? = some b) :
      Records (v.decodeRegion i) (b.blockProductions v.kind i) (b.describedBlock v.names) := by
    refine records_decodeRegion (by rw [region_eq, hb]) fun n hn => ?_
    exact records_decodeNode ⟨n, v.names⟩
  have hregions := records_regions v.node.regions 0 fun i b hb => by
    simpa only [Nat.zero_add] using hregion i b hb
  rw [decodeNode, Node.innerProductions_eq, Node.described_eq, regionCount_eq,
    List.range_eq_range', ← List.append_nil (blocksProductions _ _ _)]
  refine .bind hregions ?_
  exact .liftExcept_bind (decodedInputs_eq v) (.liftExcept_bind (decodedOutputs_eq v) (.pure _))
termination_by sizeOf v.node
decreasing_by exact Node.sizeOf_lt_of_mem_region (List.mem_of_getElem? hb) hn

/-- A graph is decoded to its description unless recording what it produces fails. -/
theorem decode_of_regions {v : View} {block : Node} (h : v.node.regions = [block]) :
    v.decode = (recordAll (v.productions 0) []).map fun _ =>
      ⟨v.kind, block.describedBlock v.names⟩ := by
  have hregion : v.region 0 = .ok ⟨block, v.names⟩ := by rw [region_eq, h]; rfl
  have hcount : v.regionCount = 1 := by rw [regionCount_eq, h]; rfl
  have hrun : ((v.decodeRegion 0).run.run []).1 =
      (outcome (v.decodeRegion 0) []).map Prod.fst := by
    unfold outcome
    rcases (v.decodeRegion 0).run.run [] with ⟨r | e, t⟩ <;> rfl
  have hrecords := records_decodeRegion hregion fun n _ => records_decodeNode ⟨n, v.names⟩
  rw [decode, if_pos hcount, hrun, hrecords, productions, hregion]
  cases recordAll (block.blockProductions v.kind 0) [] <;> rfl

theorem exists_regions_of_regionCount_eq_one {v : View} (h : v.regionCount = 1) :
    ∃ block, v.node.regions = [block] := by
  rw [regionCount_eq] at h
  exact List.length_eq_one_iff.mp h

/-- A decoded graph describes the one region of its view, and nothing in it is produced twice. -/
theorem exists_region_of_decode_eq_ok {v : View} {g : Decoded.Graph} (h : v.decode = .ok g) :
    ∃ block, v.node.regions = [block] ∧ g = ⟨v.kind, block.describedBlock v.names⟩ ∧
      ((v.productions 0).map Production.value).Nodup := by
  by_cases hcount : v.regionCount = 1
  · obtain ⟨block, hblock⟩ := exists_regions_of_regionCount_eq_one hcount
    rw [decode_of_regions hblock] at h
    cases hr : recordAll (v.productions 0) [] with
    | error e => rw [hr] at h; cases h
    | ok t =>
        rw [hr] at h
        exact ⟨block, hblock, (Except.ok.inj h).symm,
          (exists_recordAll_nil_eq_ok_iff _).mp ⟨t, hr⟩⟩
  · rw [decode, if_neg hcount] at h
    cases h

end View

end OpGraph
