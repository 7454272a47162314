import OpGraph.Proofs.Walk

/-!
# Every value has one producer

Decoding succeeds exactly when no identity is produced twice, and otherwise reports the first
production that repeats an earlier one.  No query by index ever fails on the way.
-/

namespace OpGraph

/-- The first production, in their order, of an identity that was produced before it. -/
def FirstRepeat (ps : List Production) (p : Production) : Prop :=
  ∃ before after, ps = before ++ p :: after ∧
    (before.map Production.value).Nodup ∧ p.value ∈ before.map Production.value

theorem exists_firstRepeat_of_recordAll_eq_error {ps : List Production} {e : Fault}
    (h : recordAll ps [] = .error e) : ∃ p, FirstRepeat ps p ∧ e = p.fault := by
  obtain ⟨before, p, after, hps, hbefore, hp, he⟩ := exists_of_recordAll_eq_error h
  refine ⟨p, ⟨before, after, hps, ?_, ?_⟩, he⟩
  · exact (exists_recordAll_nil_eq_ok_iff before).mp hbefore
  · exact hp.resolve_left (by simp)

namespace View

theorem exists_decode_eq_ok_iff {v : View} (h : v.regionCount = 1) :
    (∃ g, v.decode = .ok g) ↔ ((v.productions 0).map Production.value).Nodup := by
  obtain ⟨block, hblock⟩ := exists_regions_of_regionCount_eq_one h
  rw [← exists_recordAll_nil_eq_ok_iff, decode_of_regions hblock]
  cases recordAll (v.productions 0) [] <;> simp [Except.map]

theorem exists_firstRepeat_of_decode_eq_error {v : View} {e : Fault} (h : v.regionCount = 1)
    (he : v.decode = .error e) : ∃ p, FirstRepeat (v.productions 0) p ∧ e = p.fault := by
  obtain ⟨block, hblock⟩ := exists_regions_of_regionCount_eq_one h
  rw [decode_of_regions hblock] at he
  apply exists_firstRepeat_of_recordAll_eq_error
  cases hr : recordAll (v.productions 0) [] with
  | ok t => rw [hr] at he; cases he
  | error e' => rw [hr] at he; cases he; rfl

/-- A view with one region is decoded exactly when nothing in it is produced twice; otherwise the
root of the fault is the first repeated production.  Any other view is refused as it is. -/
theorem decode_ok_iff_nodup_productions (v : View) :
    (v.regionCount = 1 →
      ((∃ g, v.decode = .ok g) ↔ ((v.productions 0).map Production.value).Nodup) ∧
        ∀ e, v.decode = .error e → ∃ p, FirstRepeat (v.productions 0) p ∧
          e.root = .duplicateProducer p.kind p.value) ∧
    (v.regionCount ≠ 1 → v.decode = .error (.custom (v.kind ++
      s!": model should have exactly 1 region, found {v.regionCount}"))) := by
  refine ⟨fun h => ⟨exists_decode_eq_ok_iff h, fun e he => ?_⟩, fun h => ?_⟩
  · obtain ⟨p, hp, rfl⟩ := exists_firstRepeat_of_decode_eq_error h he
    exact ⟨p, hp, p.root_fault⟩
  · rw [decode, if_neg h]

/-- A loop whose parameter `%1` is what the constant before it puts out. -/
def clashing : View :=
  let value (n : UInt64) : Value := { id := ⟨n⟩, type := .scalar "int" }
  let block : Node := { kind := Kind.block, inputs := [value 1], body := some [] }
  ⟨{ kind := Kind.graph, inputs := [value 0],
     body := some [{ kind := Kind.constant, outputs := [value 1] },
       { kind := "prim::Loop", outputs := [value 0], blocks := [block] }] }, .empty⟩

theorem decode_clashing :
    clashing.regionCount = 1 ∧ ∃ e, clashing.decode = .error e ∧
      (∃ p, FirstRepeat (clashing.productions 0) p ∧
        e.root = .duplicateProducer p.kind p.value) ∧
      e.root = .duplicateProducer Kind.block ⟨1⟩ := by
  have hcount : clashing.regionCount = 1 := rfl
  have h : clashing.decode =
      .error (.inRegion Kind.graph 0 1 (.duplicateProducer Kind.block ⟨1⟩)) := by
    rw [decode_of_regions (show clashing.node.regions = [clashing.node] from rfl)]
    rfl
  exact ⟨hcount, _, h, ((decode_ok_iff_nodup_productions clashing).1 hcount).2 _ h, rfl⟩

end View

end OpGraph
