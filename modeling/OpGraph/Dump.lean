import OpGraph.Value

/-!
# Graph dumps

The stored form of a graph: a table of all its values, and nodes that refer to them by identity.
-/

namespace OpGraph.Dump

/-- A line of the value table. -/
structure Entry where
  id : ValueId
  type : ValueType
  literal : Option Literal := none
  deriving DecidableEq, Repr

mutual

structure Node where
  kind : String
  schema : Option String := none
  inputs : List ValueId := []
  outputs : List ValueId := []
  blocks : List Block := []

structure Block where
  inputs : List ValueId := []
  outputs : List ValueId := []
  nodes : List Node := []

end

end Dump

structure Dump where
  values : List Dump.Entry
  inputs : List ValueId := []
  outputs : List ValueId := []
  nodes : List Dump.Node := []

namespace Dump

mutual

def Node.decEq : (a b : Node) → Decidable (a = b)
  | ⟨k, s, i, o, bs⟩, ⟨k', s', i', o', bs'⟩ =>
      match decEq k k', decEq s s', decEq i i', decEq o o', decEqBlocks bs bs' with
      | .isTrue hk, .isTrue hs, .isTrue hi, .isTrue ho, .isTrue hb =>
          .isTrue (by rw [hk, hs, hi, ho, hb])
      | .isFalse h, _, _, _, _ => .isFalse fun e => h (by injection e)
      | _, .isFalse h, _, _, _ => .isFalse fun e => h (by injection e)
      | _, _, .isFalse h, _, _ => .isFalse fun e => h (by injection e)
      | _, _, _, .isFalse h, _ => .isFalse fun e => h (by injection e)
      | _, _, _, _, .isFalse h => .isFalse fun e => h (by injection e)

def decEqBlocks : (as bs : List Block) → Decidable (as = bs)
  | [], [] => .isTrue rfl
  | [], _ :: _ => .isFalse nofun
  | _ :: _, [] => .isFalse nofun
  | a :: as, b :: bs =>
      match a.decEq b, decEqBlocks as bs with
      | .isTrue h, .isTrue hs => .isTrue (by rw [h, hs])
      | .isFalse h, _ => .isFalse fun e => h (by injection e)
      | _, .isFalse h => .isFalse fun e => h (by injection e)

def Block.decEq : (a b : Block) → Decidable (a = b)
  | ⟨i, o, ns⟩, ⟨i', o', ns'⟩ =>
      match decEq i i', decEq o o', decEqNodes ns ns' with
      | .isTrue hi, .isTrue ho, .isTrue hn => .isTrue (by rw [hi, ho, hn])
      | .isFalse h, _, _ => .isFalse fun e => h (by injection e)
      | _, .isFalse h, _ => .isFalse fun e => h (by injection e)
      | _, _, .isFalse h => .isFalse fun e => h (by injection e)

def decEqNodes : (as bs : List Node) → Decidable (as = bs)
  | [], [] => .isTrue rfl
  | [], _ :: _ => .isFalse nofun
  | _ :: _, [] => .isFalse nofun
  | a :: as, b :: bs =>
      match a.decEq b, decEqNodes as bs with
      | .isTrue h, .isTrue hs => .isTrue (by rw [h, hs])
      | .isFalse h, _ => .isFalse fun e => h (by injection e)
      | _, .isFalse h => .isFalse fun e => h (by injection e)

end

instance : DecidableEq Node := Node.decEq

instance : DecidableEq Block := Block.decEq

end Dump

deriving instance DecidableEq for Dump

end OpGraph
