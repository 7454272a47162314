import OpGraph.Fault

/-!
# The layers of a fault

A fault is nothing but its path and its root.  Layers can be put around any fault, and what takes a
fault apart gives exactly those layers; the message tells them in the order of the path.
-/

namespace OpGraph

/-- A layer as messages tell it. -/
def Step.text (s : Step) : String := s.kind ++ s!": region {s.region}, node {s.position}: "

namespace Fault

variable {e : Fault}

/-- A fault with layers around it, the first of them outermost. -/
def wrap (path : List Step) (e : Fault) : Fault := path.foldr within e

@[simp] theorem wrap_cons (s : Step) (path : List Step) (e : Fault) :
    wrap (s :: path) e = within s (wrap path e) := rfl

/-! ## Taking layers apart -/

theorem path_wrap (path : List Step) (e : Fault) : (wrap path e).path = path ++ e.path := by
  induction path with
  | nil => rfl
  | cons s path ih => rw [wrap_cons, path_within, ih, List.cons_append]

theorem root_wrap (path : List Step) (e : Fault) : (wrap path e).root = e.root := by
  induction path with
  | nil => rfl
  | cons s path ih => rw [wrap_cons, root_within, ih]

/-- The fault has no layer around it. -/
def Bare (e : Fault) : Prop :=
  ∀ kind region position source, e ≠ .inRegion kind region position source

theorem Bare.path_eq (h : e.Bare) : e.path = [] := by
  cases e with
  | inRegion kind region position source => exact absurd rfl (h kind region position source)
  | _ => rfl

theorem Bare.root_eq (h : e.Bare) : e.root = e := by
  cases e with
  | inRegion kind region position source => exact absurd rfl (h kind region position source)
  | _ => rfl

theorem bare_root (e : Fault) : e.root.Bare := by
  induction e with
  | inRegion _ _ _ _ ih => exact ih
  | _ => exact nofun

theorem wrap_path_root (e : Fault) : wrap e.path e.root = e := by
  induction e with
  | inRegion kind region position source ih => exact congrArg (within ⟨kind, region, position⟩) ih
  | _ => rfl

/-! ## Messages -/

theorem message_within (s : Step) (e : Fault) : (within s e).message = s.text ++ e.message := rfl

theorem message_eq (e : Fault) :
    e.message = String.join (e.path.map Step.text) ++ e.root.message := by
  induction e with
  | inRegion kind region position source ih =>
      let s : Step := ⟨kind, region, position⟩
      calc
        (within s source).message
        _ = s.text ++ (String.join (source.path.map Step.text) ++ source.root.message) := by
          rw [message_within, ih]
        _ = String.join ((within s source).path.map Step.text) ++ (within s source).root.message := by
          rw [path_within, root_within, List.map_cons, String.join_cons, String.append_assoc]
  | _ => rfl

/-! ## Faults as paths and roots -/

/-- Every fault is its bare root with the layers of its path around it, and its message tells the
layers and then the root.  Any layers around any bare fault make a fault with that path and that
root. -/
theorem decomposes_by_path_and_root :
    (∀ e : Fault, e.root.Bare ∧ wrap e.path e.root = e ∧
      e.message = String.join (e.path.map Step.text) ++ e.root.message) ∧
    ∀ (path : List Step) (r : Fault), r.Bare →
      (wrap path r).path = path ∧ (wrap path r).root = r := by
  refine ⟨fun e => ⟨bare_root e, wrap_path_root e, message_eq e⟩, fun path r hr => ⟨?_, ?_⟩⟩
  · rw [path_wrap, hr.path_eq, List.append_nil]
  · rw [root_wrap, hr.root_eq]

/-- A branch inside a loop. -/
def branchInLoop : List Step := [⟨"prim::Loop", 0, 3⟩, ⟨"prim::If", 1, 0⟩]

def pastInputs : Fault := .indexOutOfRange "aten::add" .input 4 2

theorem wrap_branchInLoop :
    pastInputs.Bare ∧ (wrap branchInLoop pastInputs).path = branchInLoop ∧
      (wrap branchInLoop pastInputs).root = pastInputs ∧
      (wrap branchInLoop pastInputs).message =
        "prim::Loop: region 0, node 3: prim::If: region 1, node 0: " ++
          "aten::add: index 4 of input is out of range, total number of inputs is 2" := by
  have hbare : pastInputs.Bare := nofun
  obtain ⟨hpath, hroot⟩ := decomposes_by_path_and_root.2 branchInLoop pastInputs hbare
  exact ⟨hbare, hpath, hroot, by decide⟩

end Fault

end OpGraph
