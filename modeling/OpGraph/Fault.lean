import OpGraph.Value

/-!
# Faults

What can go wrong while a graph is decoded.  Missing information is never a fault, only a query
out of bounds or an inconsistent graph.  A fault met inside a region carries one `inRegion` layer
for every node around it; `path` and `root` take the layers apart again.
-/

namespace OpGraph

inductive Slot
  | input
  | output
  deriving DecidableEq, Repr

def Slot.text : Slot → String
  | .input => "input"
  | .output => "output"

inductive Fault
  | indexOutOfRange (kind : String) (slot : Slot) (index count : Nat)
  | regionOutOfRange (kind : String) (index count : Nat)
  | duplicateProducer (kind : String) (value : ValueId)
  | inRegion (kind : String) (region position : Nat) (source : Fault)
  | custom (text : String)
  deriving DecidableEq, Repr

/-- A node inside a region, as seen from the owner of the region. -/
structure Step where
  kind : String
  region : Nat
  position : Nat
  deriving DecidableEq, Repr

namespace Fault

def within (s : Step) (e : Fault) : Fault := .inRegion s.kind s.region s.position e

/-- The fault without its layers. -/
def root : Fault → Fault
  | .inRegion _ _ _ source => source.root
  | e => e

/-- The layers, outermost first. -/
def path : Fault → List Step
  | .inRegion kind region position source => ⟨kind, region, position⟩ :: source.path
  | _ => []

@[simp] theorem root_within (s : Step) (e : Fault) : (within s e).root = e.root := rfl

@[simp] theorem path_within (s : Step) (e : Fault) : (within s e).path = s :: e.path := rfl

def message : Fault → String
  | .indexOutOfRange kind slot index count =>
      kind ++ s!": index {index} of " ++ slot.text ++ " is out of range, total number of " ++
        slot.text ++ s!"s is {count}"
  | .regionOutOfRange kind index count =>
      kind ++ s!": index {index} of block is out of range, total number of blocks is {count}"
  | .duplicateProducer kind value =>
      kind ++ ": duplicated producer for value with unique id " ++ value.text
  | .inRegion kind region position source =>
      kind ++ s!": region {region}, node {position}: " ++ source.message
  | .custom text => text

end Fault

end OpGraph
