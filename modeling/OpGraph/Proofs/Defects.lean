import OpGraph.Proofs.Indexing

/-!
# The first defect

A dump becomes a graph exactly when its value table repeats no identity and defines every one that
is referred to.  Otherwise the defect is the first repeated entry of the table, whatever else is
wrong, or else the first reference to a value that the table does not have.
-/

namespace OpGraph

/-! ## Checking one by one -/

section FirstFailure

variable {α ε : Type} {f : α → Except ε Unit}

theorem forM_eq_ok_iff {xs : List α} : forM xs f = .ok () ↔ ∀ x ∈ xs, f x = .ok () := by
  induction xs with
  | nil => exact ⟨fun _ => nofun, fun _ => rfl⟩
  | cons x xs ih =>
      rw [List.forM_cons, List.forall_mem_cons, ← ih]
      cases hx : f x <;> simp [bind, Except.bind]

/-- Nothing after the first item that fails is looked at. -/
theorem forM_eq_error_iff {xs : List α} {e : ε} :
    forM xs f = .error e ↔ ∃ before x after, xs = before ++ x :: after ∧
      (∀ y ∈ before, f y = .ok ()) ∧ f x = .error e := by
  constructor
  · intro h
    induction xs with
    | nil => cases h
    | cons x xs ih =>
        rw [List.forM_cons] at h
        cases hx : f x with
        | error d =>
            obtain rfl : d = e := by simpa [hx, bind, Except.bind] using h
            exact ⟨[], x, xs, rfl, nofun, hx⟩
        | ok =>
            obtain ⟨before, y, after, rfl, hbefore, hy⟩ :=
              ih (by simpa [hx, bind, Except.bind] using h)
            exact ⟨x :: before, y, after, rfl, List.forall_mem_cons.mpr ⟨hx, hbefore⟩, hy⟩
  · rintro ⟨before, x, after, rfl, hbefore, hx⟩
    rw [List.forM_append, forM_eq_ok_iff.mpr hbefore, List.forM_cons, hx]
    rfl

end FirstFailure

namespace Dump

/-! ## References -/

/-- A mention of a value, with the kind of what mentions it. -/
structure Reference where
  owner : String
  id : ValueId
  deriving DecidableEq, Repr

def Reference.check (index : Index) (r : Reference) : Except Defect Unit :=
  if r.id ∈ index then .ok () else .error (.unknownValue r.owner r.id)

mutual

/-- What a node refers to: its inputs, its outputs, and then its blocks. -/
def Node.references : Node → List Reference
  | ⟨kind, _, inputs, outputs, blocks⟩ =>
      inputs.map (Reference.mk kind) ++
        (outputs.map (Reference.mk kind) ++ referencesInBlocks blocks)

def referencesInBlocks : List Block → List Reference
  | [] => []
  | b :: rest => b.references ++ referencesInBlocks rest

def Block.references : Block → List Reference
  | ⟨inputs, outputs, nodes⟩ =>
      inputs.map (Reference.mk Kind.block) ++
        (outputs.map (Reference.mk Kind.block) ++ referencesInNodes nodes)

def referencesInNodes : List Node → List Reference
  | [] => []
  | n :: rest => n.references ++ referencesInNodes rest

end

def references (d : Dump) : List Reference :=
  d.inputs.map (Reference.mk Kind.graph) ++
    (d.outputs.map (Reference.mk Kind.graph) ++ referencesInNodes d.nodes)

variable {index : Index}

theorem Reference.check_eq_ok_iff {r : Reference} : r.check index = .ok () ↔ r.id ∈ index := by
  unfold check
  split <;> simp_all

theorem Reference.check_eq_error_iff {r : Reference} {e : Defect} :
    r.check index = .error e ↔ r.id ∉ index ∧ e = .unknownValue r.owner r.id := by
  unfold check
  split <;> simp_all [eq_comm]

theorem checkDefined_eq (index : Index) (owner : String) (ids : List ValueId) :
    checkDefined index owner ids = forM (ids.map (Reference.mk owner)) (Reference.check index) := by
  induction ids with
  | nil => rfl
  | cons id ids ih =>
      rw [List.map_cons, List.forM_cons, ← ih, checkDefined, Reference.check]
      split <;> rfl

mutual

theorem Node.check_eq (index : Index) :
    (n : Node) → n.check index = forM n.references (Reference.check index)
  | ⟨kind, _, inputs, outputs, blocks⟩ => by
      rw [Node.check, Node.references, List.forM_append, List.forM_append, checkDefined_eq,
        checkDefined_eq, checkBlocks_eq]

theorem checkBlocks_eq (index : Index) :
    (bs : List Block) → checkBlocks index bs = forM (referencesInBlocks bs) (Reference.check index)
  | [] => rfl
  | b :: rest => by
      rw [checkBlocks, referencesInBlocks, List.forM_append, b.check_eq, checkBlocks_eq]

theorem Block.check_eq (index : Index) :
    (b : Block) → b.check index = forM b.references (Reference.check index)
  | ⟨inputs, outputs, nodes⟩ => by
      rw [Block.check, Block.references, List.forM_append, List.forM_append, checkDefined_eq,
        checkDefined_eq, checkNodes_eq]

theorem checkNodes_eq (index : Index) :
    (ns : List Node) → checkNodes index ns = forM (referencesInNodes ns) (Reference.check index)
  | [] => rfl
  | n :: rest => by
      rw [checkNodes, referencesInNodes, List.forM_append, n.check_eq, checkNodes_eq]

end

theorem checkReferences_eq (index : Index) (d : Dump) :
    d.checkReferences index = forM d.references (Reference.check index) := by
  rw [checkReferences, references, List.forM_append, List.forM_append, checkDefined_eq,
    checkDefined_eq, checkNodes_eq]

/-! ## The whole check -/

variable {d : Dump}

theorem mem_index_iff (h : Index.ofEntries d.values = .ok index) {id : ValueId} :
    id ∈ index ↔ id ∈ d.defined :=
  (Index.locates_of_ofEntries_eq_ok h).mem_iff

theorem checkReferences_eq_ok_iff (h : Index.ofEntries d.values = .ok index) :
    d.checkReferences index = .ok () ↔ ∀ r ∈ d.references, r.id ∈ d.defined := by
  simp only [checkReferences_eq, forM_eq_ok_iff, Reference.check_eq_ok_iff, mem_index_iff h]

theorem checkReferences_eq_error_iff (h : Index.ofEntries d.values = .ok index) {e : Defect} :
    d.checkReferences index = .error e ↔ ∃ before r after, d.references = before ++ r :: after ∧
      (∀ s ∈ before, s.id ∈ d.defined) ∧ r.id ∉ d.defined ∧ e = .unknownValue r.owner r.id := by
  simp only [checkReferences_eq, forM_eq_error_iff, Reference.check_eq_ok_iff,
    Reference.check_eq_error_iff, mem_index_iff h]

theorem exists_check_eq_ok_iff :
    (∃ index, d.check = .ok index) ↔
      d.defined.Nodup ∧ ∀ r ∈ d.references, r.id ∈ d.defined := by
  simp only [check_eq_ok_iff]
  constructor
  · rintro ⟨index, hindex, hrefs⟩
    exact ⟨Index.exists_ofEntries_eq_ok_iff.mp ⟨index, hindex⟩,
      (checkReferences_eq_ok_iff hindex).mp hrefs⟩
  · rintro ⟨hnodup, hdefined⟩
    obtain ⟨index, hindex⟩ := Index.exists_ofEntries_eq_ok_iff.mpr hnodup
    exact ⟨index, hindex, (checkReferences_eq_ok_iff hindex).mpr hdefined⟩

theorem check_eq_error_iff {e : Defect} :
    d.check = .error e ↔
      (∃ before id after, d.defined = before ++ id :: after ∧ before.Nodup ∧ id ∈ before ∧
          e = .duplicateValue id) ∨
        d.defined.Nodup ∧ ∃ before r after, d.references = before ++ r :: after ∧
          (∀ s ∈ before, s.id ∈ d.defined) ∧ r.id ∉ d.defined ∧ e = .unknownValue r.owner r.id := by
  have hrepeated : Index.ofEntries d.values = .error e ↔ ∃ before id after,
      d.defined = before ++ id :: after ∧ before.Nodup ∧ id ∈ before ∧ e = .duplicateValue id :=
    Index.ofEntries_eq_error_iff
  have hnodup : (∃ index, Index.ofEntries d.values = .ok index) ↔ d.defined.Nodup :=
    Index.exists_ofEntries_eq_ok_iff
  rw [← hrepeated, ← hnodup, check]
  cases hindex : Index.ofEntries d.values with
  | error e' => simp [bind, Except.bind]
  | ok index =>
      rw [← checkReferences_eq_error_iff hindex]
      cases hrefs : d.checkReferences index <;> simp [bind, Except.bind, hrefs]

end Dump

/-! ## Graphs -/

namespace Graph

theorem exists_ofDump_eq_ok_iff {d : Dump} :
    (∃ g, ofDump d = .ok g) ↔ ∃ index, d.check = .ok index := by
  unfold ofDump
  split <;> simp_all

theorem ofDump_eq_error_iff {d : Dump} {e : Dump.Defect} :
    ofDump d = .error e ↔ d.check = .error e := by
  unfold ofDump
  split <;> simp_all

/-- A dump passes exactly when its table repeats nothing and has all that is referred to.  A
repeated entry is reported before any missing one, and of either kind the first. -/
theorem ofDump_first_defect (d : Dump) :
    ((∃ g, ofDump d = .ok g) ↔ d.defined.Nodup ∧ ∀ r ∈ d.references, r.id ∈ d.defined) ∧
      (∀ id, ofDump d = .error (.duplicateValue id) ↔
        ∃ before after, d.defined = before ++ id :: after ∧ before.Nodup ∧ id ∈ before) ∧
      ∀ owner id, ofDump d = .error (.unknownValue owner id) ↔
        d.defined.Nodup ∧ ∃ before after, d.references = before ++ ⟨owner, id⟩ :: after ∧
          (∀ r ∈ before, r.id ∈ d.defined) ∧ id ∉ d.defined := by
  refine ⟨?_, fun id => ?_, fun owner id => ?_⟩
  · exact exists_ofDump_eq_ok_iff.trans Dump.exists_check_eq_ok_iff
  · rw [ofDump_eq_error_iff, Dump.check_eq_error_iff]
    constructor
    · rintro (⟨before, x, after, hids, hbefore, hx, he⟩ | ⟨_, _, _, _, _, _, _, he⟩)
      · cases he
        exact ⟨before, after, hids, hbefore, hx⟩
      · cases he
    · rintro ⟨before, after, hids, hbefore, hid⟩
      exact .inl ⟨before, id, after, hids, hbefore, hid, rfl⟩
  · rw [ofDump_eq_error_iff, Dump.check_eq_error_iff]
    constructor
    · rintro (⟨_, _, _, _, _, _, he⟩ | ⟨hnodup, before, r, after, hrefs, hbefore, hr, he⟩)
      · cases he
      · cases he
        exact ⟨hnodup, before, after, hrefs, hbefore, hr⟩
    · rintro ⟨hnodup, before, after, hrefs, hbefore, hid⟩
      exact .inr ⟨hnodup, before, _, after, hrefs, hbefore, hid, rfl⟩

/-- A result of a block is looked up after the block's parameters, and missed by the block and not
by the node that it belongs to. -/
example :
    let block : Dump.Block := { inputs := [⟨0⟩], outputs := [⟨1⟩] }
    let loop : Dump.Node := { kind := "prim::Loop", blocks := [block] }
    ofDump { values := [{ id := ⟨0⟩, type := .unknownTensor }], nodes := [loop] } =
      .error (.unknownValue Kind.block ⟨1⟩) := by
  rfl

end Graph

end OpGraph
