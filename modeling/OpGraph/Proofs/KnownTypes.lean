import Mathlib.Data.List.Forall2
import OpGraph.Node

/-!
# What a type tells

A type tells the sizes of a value when all of them are known, and the native name of its element
type when it has one.  The shape and the element type of a value come from these two.
-/

namespace OpGraph

section Mapping

variable {α β : Type}

theorem mapM_eq_some_iff_forall₂ {f : α → Option β} {xs : List α} {ys : List β} :
    xs.mapM f = some ys ↔ List.Forall₂ (fun x y => f x = some y) xs ys := by
  induction xs generalizing ys with
  | nil => simp [eq_comm]
  | cons x xs ih =>
      rw [List.mapM_cons, List.forall₂_cons_left_iff]
      simp only [Option.bind_eq_bind, Option.bind_eq_some_iff, ih, Option.pure_def,
        Option.some.injEq]
      constructor
      · rintro ⟨y, hy, zs, hzs, rfl⟩
        exact ⟨y, zs, hy, hzs, rfl⟩
      · rintro ⟨y, zs, hy, hzs, rfl⟩
        exact ⟨y, hy, zs, hzs, rfl⟩

theorem mapM_id_eq_some_iff {xs : List (Option α)} {ys : List α} :
    xs.mapM id = some ys ↔ xs = ys.map some := by
  rw [mapM_eq_some_iff_forall₂, ← List.forall₂_eq_eq_eq, List.forall₂_map_right_iff]
  rfl

end Mapping

/-- The type of a tensor of which everything is known. -/
inductive ValueType.Complete : ValueType → List UInt64 → Prop
  | tensor (name : String) (sizes : List UInt64) :
      Complete (.tensor (some name) (some (sizes.map some))) sizes

/-- The element type of a tensor or scalar has a native name. -/
inductive ValueType.ElementNamed : ValueType → String → Prop
  | tensor (name : String) (sizes : Option (List Dim)) :
      ElementNamed (.tensor (some name) sizes) name
  | scalar (name : String) : ElementNamed (.scalar name) name

namespace ValueType

theorem knownSizes_eq_some_iff {t : ValueType} {sizes : List UInt64} :
    t.knownSizes = some sizes ↔ t.Complete sizes := by
  constructor
  · intro h
    unfold knownSizes at h
    split at h
    · obtain rfl := mapM_id_eq_some_iff.mp h
      exact .tensor _ sizes
    · cases h
  · rintro ⟨name, sizes⟩
    exact mapM_id_eq_some_iff.mpr rfl

theorem elementName_eq_some_iff {t : ValueType} {name : String} :
    t.elementName = some name ↔ t.ElementNamed name := by
  constructor
  · intro h
    cases t with
    | tensor element sizes =>
        obtain rfl : element = some name := h
        exact .tensor name sizes
    | scalar n =>
        obtain rfl : n = name := Option.some.inj h
        exact .scalar n
    | list | absent | other => cases h
  · rintro (⟨name, sizes⟩ | ⟨name⟩) <;> rfl

end ValueType

namespace Value

variable {v : Value}

theorem shape_eq_static {sizes : List UInt64} (h : v.type.Complete sizes) :
    v.shape = .static sizes := by
  rw [shape, ValueType.knownSizes_eq_some_iff.mpr h]

theorem shape_eq_dynamic (h : ∀ sizes, ¬v.type.Complete sizes) : v.shape = .dynamic := by
  have hsizes : v.type.knownSizes = none :=
    Option.eq_none_iff_forall_ne_some.mpr fun sizes hs =>
      h sizes (ValueType.knownSizes_eq_some_iff.mp hs)
  rw [shape, hsizes]

theorem element_eq_lookup {name : String} (names : TypeNames) (h : v.type.ElementNamed name) :
    v.element names = names.lookup name := by
  rw [element, ValueType.elementName_eq_some_iff.mpr h]

theorem element_eq_of_get?_eq_some {name : String} {names : TypeNames} {e : Element}
    (h : v.type.ElementNamed name) (he : names.get? name = some e) : v.element names = e := by
  rw [element_eq_lookup names h, TypeNames.lookup, he]
  rfl

theorem element_eq_dynamic (names : TypeNames) (h : ∀ name, ¬v.type.ElementNamed name) :
    v.element names = .dynamic := by
  have hname : v.type.elementName = none :=
    Option.eq_none_iff_forall_ne_some.mpr fun name hn =>
      h name (ValueType.elementName_eq_some_iff.mp hn)
  rw [element, hname]

end Value

end OpGraph
