import OpGraph.Fault
import OpGraph.Node

/-!
# Views

A view is a node together with the type names that are recognised, and answers every question
that decoding asks about it.  The children inside its regions are reached through `visit`, which
hands each of them to a visitor and stops at the first fault.
-/

namespace OpGraph

structure View where
  node : Node
  names : TypeNames

namespace View

variable (v : View)

def kind : String := v.node.kind

def schema : Option String := v.node.schema

/-- Whether the schema marks an argument as written in place. -/
def mutates : Bool := v.schema.any fun s => s.contains '!'

def values : Slot → List Value
  | .input => v.node.inputs
  | .output => v.node.outputs

def ids (slot : Slot) : List ValueId := (v.values slot).map Value.id

def count (slot : Slot) : Nat := (v.values slot).length

def value (slot : Slot) (index : Nat) : Except Fault Value :=
  match (v.values slot)[index]? with
  | some value => .ok value
  | none => .error (.indexOutOfRange v.kind slot index (v.count slot))

def id (slot : Slot) (index : Nat) : Except Fault ValueId :=
  (v.value slot index).map Value.id

def shape (slot : Slot) (index : Nat) : Except Fault Shape :=
  (v.value slot index).map Value.shape

def element (slot : Slot) (index : Nat) : Except Fault Element :=
  (v.value slot index).map (Value.element v.names)

/-- Whether an input is left out.  An input past the last one is. -/
def inputAbsent (index : Nat) : Bool := (v.node.inputs[index]?).all Value.absent

def constant : Option Constant := v.node.constant v.names

/-! ## Regions -/

/-- The number of regions: a node with a body is its own single one. -/
def regionCount : Nat :=
  match v.node.body with
  | some _ => 1
  | none => v.node.blocks.length

def region (index : Nat) : Except Fault View :=
  match v.node.body with
  | some _ => if index = 0 then .ok v else .error (.regionOutOfRange v.kind index 1)
  | none =>
      match v.node.blocks[index]? with
      | some block => .ok ⟨block, v.names⟩
      | none => .error (.regionOutOfRange v.kind index v.node.blocks.length)

theorem regionCount_eq : v.regionCount = v.node.regions.length := by
  unfold regionCount Node.regions
  cases v.node.body <;> rfl

theorem region_eq (index : Nat) :
    v.region index = match v.node.regions[index]? with
      | some block => .ok ⟨block, v.names⟩
      | none => .error (.regionOutOfRange v.kind index v.regionCount) := by
  unfold region regionCount Node.regions
  cases v.node.body with
  | none => rfl
  | some contents => cases index <;> rfl

/-- The views of the nodes in a region, in their stored order. -/
def children (index : Nat) : Except Fault (List View) :=
  (v.region index).map fun block => block.node.contents.map fun n => ⟨n, v.names⟩

/-- An action that keeps what it did to the state when it fails. -/
abbrev Visit (σ : Type) := ExceptT Fault (StateM σ)

variable {σ : Type}

def visitFrom (kind : String) (index : Nat) :
    (views : List View) → ((c : View) → c ∈ views → Visit σ Unit) → (position : Nat) →
      Visit σ Unit
  | [], _, _ => pure ()
  | c :: cs, visitor, position => do
      ExceptT.adapt (Fault.within ⟨kind, index, position⟩) (visitor c List.mem_cons_self)
      visitFrom kind index cs (fun d h => visitor d (List.mem_cons_of_mem _ h)) (position + 1)

/-- Calls a visitor, which may rely on being given children, on every node of a region. -/
def visitChildren (index : Nat)
    (visitor : (c : View) → (∃ cs, v.children index = .ok cs ∧ c ∈ cs) → Visit σ Unit) :
    Visit σ Unit :=
  match h : v.children index with
  | .ok cs => visitFrom v.kind index cs (fun c hc => visitor c ⟨cs, h, hc⟩) 0
  | .error e => throw e

def visit (index : Nat) (visitor : View → Visit σ Unit) : Visit σ Unit :=
  v.visitChildren index fun c _ => visitor c

theorem sizeOf_lt_of_mem_children {v c : View} {index : Nat}
    (h : ∃ cs, v.children index = .ok cs ∧ c ∈ cs) : sizeOf c.node < sizeOf v.node := by
  obtain ⟨cs, hcs, hc⟩ := h
  rw [children, region_eq] at hcs
  split at hcs
  · rename_i block hb
    simp only [Except.map, Except.ok.injEq] at hcs
    subst hcs
    obtain ⟨n, hn, rfl⟩ := List.mem_map.mp hc
    exact Node.sizeOf_lt_of_mem_region (List.mem_of_getElem? hb) hn
  · simp [Except.map] at hcs

/-- Visits a child and, when `deep`, everything below it: notes the child, lets `check` decide
from what was noted before whether to stop, and goes on to its regions in order. -/
def explore (check : List View → View → Except Fault Unit) (deep : Bool) (v : View) :
    Visit (List View) Unit := do
  let before ← get
  set (before ++ [v])
  liftExcept (check before v)
  if deep then
    (List.range v.regionCount).forM fun index =>
      v.visitChildren index fun c h =>
        have := sizeOf_lt_of_mem_children h
        explore check deep c
termination_by sizeOf v.node

end View

end OpGraph
