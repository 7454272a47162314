import Mathlib.Data.List.Forall2
import OpGraph.Proofs.Walk
import OpGraph.Settings

/-!
# Recognising more names refines

A table of type names only grows.  Under a grown table decoding fails as it did before, and a
graph that was decoded stays as it was, but for element types that were dynamic and constants that
were absent.
-/

namespace OpGraph

/-! ## Grown tables -/

namespace TypeNames

/-- A table together with whatever was put into it afterwards. -/
inductive Grown (t : TypeNames) : TypeNames → Prop
  | refl : Grown t t
  | insert {u : TypeNames} (h : Grown t u) (name : String) (e : Element) :
      Grown t (u.insert name e).1
  | add {u : TypeNames} (h : Grown t u) (name : String) (e : Element) : Grown t (u.add name e)
  | extend {u : TypeNames} (h : Grown t u) (entries : List (String × Element)) :
      Grown t (u.extend entries)

/-- Whatever one table recognises, the other maps to the same type. -/
def Kept (t u : TypeNames) : Prop := ∀ name e, t.get? name = some e → u.get? name = some e

theorem kept_insert (t : TypeNames) (name : String) (e : Element) :
    t.Kept (t.insert name e).1 := by
  intro n d hn
  unfold insert
  split
  · exact hn
  · rename_i h
    have hne : n ≠ name := by
      rintro rfl
      exact h (.inr (by simp [contains, hn]))
    have hput : (t.map.put name e).get? n = t.map.get? n := by
      rw [NameMap.get?_put, if_neg hne]
    exact hput.trans hn

theorem kept_extend (t : TypeNames) (entries : List (String × Element)) :
    t.Kept (t.extend entries) := by
  induction entries generalizing t with
  | nil => exact fun _ _ h => h
  | cons entry entries ih =>
      intro name e h
      exact ih _ name e (t.kept_insert entry.1 entry.2 name e h)

theorem Grown.kept {t u : TypeNames} (h : t.Grown u) : t.Kept u := by
  induction h with
  | refl => exact fun _ _ h => h
  | @insert u _ name e ih => exact fun n d hn => u.kept_insert name e n d (ih n d hn)
  | @add u _ name e ih => exact fun n d hn => u.kept_insert name e n d (ih n d hn)
  | @extend u _ entries ih => exact fun n d hn => u.kept_extend entries n d (ih n d hn)

end TypeNames

/-! ## What a value and a node know -/

section Kept

variable {t u : TypeNames}

theorem Value.element_of_kept (h : t.Kept u) {v : Value} (hv : v.element t ≠ .dynamic) :
    v.element u = v.element t := by
  unfold Value.element at hv ⊢
  cases hname : v.type.elementName with
  | none => rfl
  | some name =>
      simp only [hname, TypeNames.lookup] at hv ⊢
      cases he : t.get? name with
      | none => simp [he] at hv
      | some e => rw [h name e he]

theorem Value.constant_of_kept (h : t.Kept u) {v : Value} {c : Constant}
    (hc : v.constant t = some c) : v.constant u = some c := by
  unfold Value.constant at hc ⊢
  split at hc
  · obtain ⟨sizes, hsizes, hc⟩ := Option.bind_eq_some_iff.mp hc
    obtain ⟨e, he, hc⟩ := Option.bind_eq_some_iff.mp hc
    simp [hsizes, h _ e he, hc]
  · obtain ⟨e, he, hc⟩ := Option.bind_eq_some_iff.mp hc
    simp [h _ e he, hc]
  · obtain ⟨e, he, hc⟩ := Option.bind_eq_some_iff.mp hc
    simp [h _ e he, hc]
  · cases hc

theorem Node.constant_of_kept (h : t.Kept u) {n : Node} {c : Constant}
    (hc : n.constant t = some c) : n.constant u = some c := by
  unfold Node.constant at hc ⊢
  split at hc
  · rename_i hkind
    obtain ⟨v, hv, hc⟩ := Option.bind_eq_some_iff.mp hc
    rw [if_pos hkind, hv]
    exact Value.constant_of_kept h hc
  · cases hc

end Kept

/-! ## Refined graphs -/

namespace Decoded

/-- Nothing differs but an element type that was dynamic. -/
structure Value.RefinedBy (v w : Value) : Prop where
  id : w.id = v.id
  shape : w.shape = v.shape
  absent : w.absent = v.absent
  element : v.element ≠ .dynamic → w.element = v.element

mutual

/-- Nothing differs but values that are refined and constants that were absent, at any depth. -/
inductive Node.RefinedBy : Node → Node → Prop
  | intro {n m : Node} (kind : m.kind = n.kind) (schema : m.schema = n.schema)
      (inputs : List.Forall₂ Value.RefinedBy n.inputs m.inputs)
      (outputs : List.Forall₂ Value.RefinedBy n.outputs m.outputs)
      (constant : ∀ c, n.constant = some c → m.constant = some c)
      (regions : List.Forall₂ Region.RefinedBy n.regions m.regions) : Node.RefinedBy n m

inductive Region.RefinedBy : Region → Region → Prop
  | intro {r s : Region} (inputs : List.Forall₂ Value.RefinedBy r.inputs s.inputs)
      (outputs : List.Forall₂ Value.RefinedBy r.outputs s.outputs)
      (captures : s.captures = r.captures)
      (nodes : List.Forall₂ Node.RefinedBy r.nodes s.nodes) : Region.RefinedBy r s

end

structure Graph.RefinedBy (g h : Graph) : Prop where
  kind : h.kind = g.kind
  body : g.body.RefinedBy h.body

theorem map_eq_of_forall₂ {α β : Type} {R : α → α → Prop} {f : α → β}
    (hf : ∀ a b, R a b → f b = f a) {as bs : List α} (h : List.Forall₂ R as bs) :
    bs.map f = as.map f := by
  induction h with
  | nil => rfl
  | cons hab _ ih => rw [List.map_cons, List.map_cons, hf _ _ hab, ih]

theorem ids_of_refinedBy {vs ws : List Value} (h : List.Forall₂ Value.RefinedBy vs ws) :
    ids ws = ids vs :=
  map_eq_of_forall₂ (fun _ _ hvw => hvw.id) h

theorem Region.RefinedBy.captures {r s : Region} (h : r.RefinedBy s) :
    s.captures = r.captures := by
  cases h
  assumption

theorem Node.RefinedBy.uses {n m : Node} (h : n.RefinedBy m) : m.uses = n.uses := by
  cases h with
  | intro _ _ inputs _ _ regions =>
      have hregions := map_eq_of_forall₂ (fun _ _ h => h.captures) regions
      rw [Node.uses, Node.uses, ids_of_refinedBy inputs, List.flatMap_def, hregions,
        List.flatMap_def]

theorem Node.RefinedBy.ids_outputs {n m : Node} (h : n.RefinedBy m) :
    ids m.outputs = ids n.outputs := by
  cases h with
  | intro _ _ _ outputs => exact ids_of_refinedBy outputs

/-- What a region captures does not depend on what is known of its values. -/
theorem capturesFrom_of_refinedBy (results locals captures : List ValueId) {ns ms : List Node}
    (h : List.Forall₂ Node.RefinedBy ns ms) :
    capturesFrom results locals captures ms = capturesFrom results locals captures ns := by
  induction h generalizing locals captures with
  | nil => rfl
  | cons hnm _ ih => rw [capturesFrom, capturesFrom, hnm.uses, hnm.ids_outputs, ih]

theorem Region.refinedBy_of {inputs inputs' outputs outputs' : List Value} {ns ms : List Node}
    (hin : List.Forall₂ Value.RefinedBy inputs inputs')
    (hout : List.Forall₂ Value.RefinedBy outputs outputs')
    (hns : List.Forall₂ Node.RefinedBy ns ms) :
    (Region.of inputs outputs ns).RefinedBy (Region.of inputs' outputs' ms) := by
  refine .intro hin hout ?_ hns
  simp only [Region.of, ids_of_refinedBy hin, ids_of_refinedBy hout]
  exact capturesFrom_of_refinedBy _ _ _ hns

end Decoded

/-! ## Decoding under a grown table -/

theorem forall₂_map {α β γ : Type} {R : β → γ → Prop} {f : α → β} {g : α → γ} {l : List α}
    (h : ∀ a ∈ l, R (f a) (g a)) : List.Forall₂ R (l.map f) (l.map g) := by
  rw [List.forall₂_map_left_iff, List.forall₂_map_right_iff, List.forall₂_same]
  exact h

section Kept

variable {t u : TypeNames}

theorem Value.map_of_refinedBy (h : t.Kept u) (vs : List Value) :
    List.Forall₂ Decoded.Value.RefinedBy (vs.map (.of t)) (vs.map (.of u)) :=
  forall₂_map fun _ _ => ⟨rfl, rfl, rfl, fun he => Value.element_of_kept h he⟩

theorem Node.described_refinedBy (h : t.Kept u) {n : Node}
    (hregions : ∀ b ∈ n.regions, (b.describedBlock t).RefinedBy (b.describedBlock u)) :
    (n.described t).RefinedBy (n.described u) := by
  rw [described_eq, described_eq]
  refine .intro rfl rfl (Value.map_of_refinedBy h _) (Value.map_of_refinedBy h _) ?_
    (forall₂_map hregions)
  intro c hc
  obtain ⟨d, hd, rfl⟩ := Option.map_eq_some_iff.mp hc
  exact Option.map_eq_some_iff.mpr ⟨d, constant_of_kept h hd, rfl⟩

theorem Node.describedBlock_refinedBy (h : t.Kept u) (b : Node) :
    (b.describedBlock t).RefinedBy (b.describedBlock u) := by
  induction b using block_induction with
  | step b ih =>
      rw [describedBlock_eq, describedBlock_eq]
      refine Decoded.Region.refinedBy_of (Value.map_of_refinedBy h _)
        (Value.map_of_refinedBy h _) ?_
      exact forall₂_map fun n hn => described_refinedBy h (ih n hn)

end Kept

namespace View

theorem productions_names (n : Node) (t u : TypeNames) (index : Nat) :
    (⟨n, t⟩ : View).productions index = (⟨n, u⟩ : View).productions index := by
  rw [productions, productions, region_eq, region_eq]
  cases n.regions[index]? <;> rfl

theorem decode_of_kept {n : Node} {t u : TypeNames} (h : t.Kept u) :
    (∃ e, (⟨n, t⟩ : View).decode = .error e ∧ (⟨n, u⟩ : View).decode = .error e) ∨
      ∃ g g' : Decoded.Graph, (⟨n, t⟩ : View).decode = .ok g ∧
        (⟨n, u⟩ : View).decode = .ok g' ∧ g.RefinedBy g' := by
  by_cases hcount : (⟨n, t⟩ : View).regionCount = 1
  · obtain ⟨block, hblock⟩ := exists_regions_of_regionCount_eq_one hcount
    have ht := decode_of_regions (v := ⟨n, t⟩) hblock
    have hu := decode_of_regions (v := ⟨n, u⟩) hblock
    -- Both runs record the same productions, so they fail at the same one or not at all.
    rw [productions_names n u t] at hu
    cases hr : recordAll ((⟨n, t⟩ : View).productions 0) [] with
    | error e =>
        rw [hr] at ht hu
        exact .inl ⟨e, ht, hu⟩
    | ok produced =>
        rw [hr] at ht hu
        exact .inr ⟨_, _, ht, hu, rfl, block.describedBlock_refinedBy h⟩
  · exact .inl ⟨_, if_neg hcount, if_neg hcount⟩

/-- The standard table and that of any settings are grown ones.  Under a grown table a graph is
refused with the same fault as before, or it is decoded to a refinement of what it was. -/
theorem decode_refines_of_grown :
    TypeNames.empty.Grown .standard ∧ (∀ s : Settings, TypeNames.standard.Grown s.typeNames) ∧
      ∀ (n : Node) (t u : TypeNames), t.Grown u →
        (∀ e, (⟨n, t⟩ : View).decode = .error e ↔ (⟨n, u⟩ : View).decode = .error e) ∧
          ∀ g g' : Decoded.Graph, (⟨n, t⟩ : View).decode = .ok g →
            (⟨n, u⟩ : View).decode = .ok g' → g.RefinedBy g' := by
  refine ⟨.extend .refl _, fun s => .extend .refl _, fun n t u hgrown => ?_⟩
  obtain ⟨e, ht, hu⟩ | ⟨g, g', ht, hu, hg⟩ := decode_of_kept (n := n) hgrown.kept
  · rw [ht, hu]
    exact ⟨fun _ => Iff.rfl, nofun⟩
  · rw [ht, hu]
    refine ⟨fun _ => ⟨nofun, nofun⟩, ?_⟩
    rintro _ _ ⟨⟩ ⟨⟩
    exact hg

/-- A constant of a type that the standard table does not have, and one that it has. -/
def folding : Node :=
  let value (n : UInt64) (name : String) : Value :=
    { id := ⟨n⟩, type := .scalar name, literal := .scalar (.int 7) }
  { kind := Kind.graph, outputs := [value 0 "torch.int64"],
    body := some [{ kind := Kind.constant, outputs := [value 0 "torch.int64"] },
      { kind := Kind.constant, outputs := [value 1 "int"] }] }

def widened : Settings := (Settings.standard.setType "torch.int64" .i64).setType "int" .i64

theorem decode_folding :
    ∃ g g' : Decoded.Graph, (⟨folding, .standard⟩ : View).decode = .ok g ∧
      (⟨folding, widened.typeNames⟩ : View).decode = .ok g' ∧ g.RefinedBy g' ∧
      g.body.nodes.map Decoded.Node.constant = [none, some ⟨.i32, [], [.int 7]⟩] ∧
      g'.body.nodes.map Decoded.Node.constant =
        [some ⟨.i64, [], [.int 7]⟩, some ⟨.i32, [], [.int 7]⟩] := by
  have h (t : TypeNames) : (⟨folding, t⟩ : View).decode =
      .ok ⟨Kind.graph, folding.describedBlock t⟩ := by
    rw [decode_of_regions (show folding.regions = [folding] from rfl)]
    rfl
  have hgrown := decode_refines_of_grown.2.1 widened
  exact ⟨_, _, h _, h _, (decode_refines_of_grown.2.2 folding _ _ hgrown).2 _ _ (h _) (h _),
    rfl, rfl⟩

end View

end OpGraph
