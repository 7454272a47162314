import Mathlib.Algebra.BigOperators.Ring.List
import Mathlib.Algebra.Ring.Nat
import Mathlib.Data.List.TakeWhile
import OpGraph.Proofs.Constants

/-!
# Which scalars make a constant

A constant is made when its element type takes every scalar and the shape has a place for each.
The places are counted from the left in words, so a dimension without a place comes too late once
the dimensions before it have overflowed.
-/

namespace OpGraph

/-! ## Scalars of an element type -/

/-- An element type takes a scalar: an integer type the integers in its range, a float type any
number. -/
inductive Scalar.ConvertsTo : Element → Scalar → Prop
  | intF32 (n : Int64) : ConvertsTo .f32 (.int n)
  | floatF32 (x : Binary64) : ConvertsTo .f32 (.float x)
  | intF64 (n : Int64) : ConvertsTo .f64 (.int n)
  | floatF64 (x : Binary64) : ConvertsTo .f64 (.float x)
  | i8 {n : Int64} (h : -2 ^ 7 ≤ n.toInt ∧ n.toInt < 2 ^ 7) : ConvertsTo .i8 (.int n)
  | i32 {n : Int64} (h : -2 ^ 31 ≤ n.toInt ∧ n.toInt < 2 ^ 31) : ConvertsTo .i32 (.int n)
  | i64 (n : Int64) : ConvertsTo .i64 (.int n)
  | u8 {n : Int64} (h : 0 ≤ n.toInt ∧ n.toInt < 2 ^ 8) : ConvertsTo .u8 (.int n)
  | bool (b : Bool) : ConvertsTo .bool (.bool b)

namespace Scalar

variable {s : Scalar}

theorem isSome_toBinary64_iff : s.toBinary64.isSome ↔ s.ConvertsTo .f64 := by
  cases s with
  | int n => exact iff_of_true rfl (.intF64 n)
  | float x => exact iff_of_true rfl (.floatF64 x)
  | bool b => exact iff_of_false nofun nofun

theorem isSome_toBinary32_iff : s.toBinary32.isSome ↔ s.ConvertsTo .f32 := by
  cases s with
  | int n => exact iff_of_true rfl (.intF32 n)
  | float x => exact iff_of_true rfl (.floatF32 x)
  | bool b => exact iff_of_false nofun nofun

theorem isSome_toInt8_iff : s.toInt8.isSome ↔ s.ConvertsTo .i8 := by
  cases s with
  | int n =>
      have hmin : Int8.minValue.toInt = -2 ^ 7 := by decide
      have hmax : Int8.maxValue.toInt = 2 ^ 7 - 1 := by decide
      rw [toInt8, hmin, hmax, Option.isSome_ite, Int.le_sub_one_iff]
      exact ⟨.i8, fun | .i8 h => h⟩
  | float | bool => exact iff_of_false nofun nofun

theorem isSome_toInt32_iff : s.toInt32.isSome ↔ s.ConvertsTo .i32 := by
  cases s with
  | int n =>
      have hmin : Int32.minValue.toInt = -2 ^ 31 := by decide
      have hmax : Int32.maxValue.toInt = 2 ^ 31 - 1 := by decide
      rw [toInt32, hmin, hmax, Option.isSome_ite, Int.le_sub_one_iff]
      exact ⟨.i32, fun | .i32 h => h⟩
  | float | bool => exact iff_of_false nofun nofun

theorem isSome_toInt64_iff : s.toInt64.isSome ↔ s.ConvertsTo .i64 := by
  cases s with
  | int n => exact iff_of_true rfl (.i64 n)
  | float | bool => exact iff_of_false nofun nofun

theorem isSome_toUInt8_iff : s.toUInt8.isSome ↔ s.ConvertsTo .u8 := by
  cases s with
  | int n =>
      have hsize : (UInt8.size : Int) = 2 ^ 8 := by decide
      rw [toUInt8, hsize, Option.isSome_ite]
      exact ⟨.u8, fun | .u8 h => h⟩
  | float | bool => exact iff_of_false nofun nofun

theorem isSome_toBool_iff : s.toBool.isSome ↔ s.ConvertsTo .bool := by
  cases s with
  | bool b => exact iff_of_true rfl (.bool b)
  | int | float => exact iff_of_false nofun nofun

end Scalar

/-! ## Payloads -/

theorem isSome_mapM_iff {α β : Type} {f : α → Option β} {xs : List α} :
    (xs.mapM f).isSome ↔ ∀ x ∈ xs, (f x).isSome := by
  induction xs with
  | nil => simp
  | cons x xs ih =>
      rw [List.mapM_cons, List.forall_mem_cons, ← ih]
      cases f x <;> cases xs.mapM f <;> simp

theorem Payload.isSome_ofScalars?_iff {values : List Scalar} {e : Element} :
    (ofScalars? values e).isSome ↔ e ≠ .dynamic ∧ ∀ s ∈ values, s.ConvertsTo e := by
  cases e with
  | dynamic => exact iff_of_false nofun fun h => h.1 rfl
  | f32 => simp [ofScalars?, isSome_mapM_iff, Scalar.isSome_toBinary32_iff]
  | f64 => simp [ofScalars?, isSome_mapM_iff, Scalar.isSome_toBinary64_iff]
  | i8 => simp [ofScalars?, isSome_mapM_iff, Scalar.isSome_toInt8_iff]
  | i32 => simp [ofScalars?, isSome_mapM_iff, Scalar.isSome_toInt32_iff]
  | i64 => simp [ofScalars?, isSome_mapM_iff, Scalar.isSome_toInt64_iff]
  | u8 => simp [ofScalars?, isSome_mapM_iff, Scalar.isSome_toUInt8_iff]
  | bool => simp [ofScalars?, isSome_mapM_iff, Scalar.isSome_toBool_iff]

/-! ## Places of a shape -/

namespace Constant

/-- The places of a shape, counted without a bound. -/
def places (shape : List UInt64) : Nat := (shape.map UInt64.toNat).prod

/-- The dimensions before the first one without a place. -/
def leading (shape : List UInt64) : List UInt64 := shape.takeWhile (· ≠ 0)

@[simp] theorem places_nil : places [] = 1 := rfl

@[simp] theorem places_cons (n : UInt64) (shape : List UInt64) :
    places (n :: shape) = n.toNat * places shape := List.prod_cons

theorem leading_cons_zero (shape : List UInt64) : leading (0 :: shape) = [] := rfl

theorem leading_cons_of_ne {n : UInt64} (hn : n ≠ 0) (shape : List UInt64) :
    leading (n :: shape) = n :: leading shape :=
  List.takeWhile_cons_of_pos (by simpa using hn)

theorem leading_of_zero_notMem {shape : List UInt64} (h : 0 ∉ shape) : leading shape = shape :=
  List.takeWhile_eq_self_iff.mpr fun n hn => by simpa using fun hzero : n = 0 => h (hzero ▸ hn)

theorem toNat_pos {n : UInt64} (hn : n ≠ 0) : 0 < n.toNat :=
  UInt64.lt_iff_toNat_lt.mp (UInt64.pos_iff_ne_zero.mpr hn)

theorem places_leading_pos (shape : List UInt64) : 0 < places (leading shape) := by
  induction shape with
  | nil => exact Nat.one_pos
  | cons n shape ih =>
      by_cases hn : n = 0
      · rw [hn, leading_cons_zero]
        exact Nat.one_pos
      · rw [leading_cons_of_ne hn, places_cons]
        exact Nat.mul_pos (toNat_pos hn) ih

theorem foldlM_zero (shape : List UInt64) :
    shape.foldlM (fun count n =>
      if count * n.toNat < UInt64.size then some (count * n.toNat) else none) 0 = some 0 := by
  induction shape with
  | nil => rfl
  | cons n shape ih => simpa [List.foldlM_cons] using ih

/-- The count stays within a word up to the first dimension without a place, and after that it
stays at zero. -/
theorem foldlM_eq_some_iff {shape : List UInt64} {start count : Nat} (hpos : 0 < start)
    (hstart : start < UInt64.size) :
    shape.foldlM (fun count n =>
      if count * n.toNat < UInt64.size then some (count * n.toNat) else none) start = some count ↔
        start * places shape = count ∧ start * places (leading shape) < UInt64.size := by
  induction shape generalizing start with
  | nil => simp [leading, hstart]
  | cons n shape ih =>
      rw [List.foldlM_cons, places_cons]
      by_cases hn : n = 0
      · rw [hn, leading_cons_zero]
        simp [hstart, foldlM_zero]
      · rw [leading_cons_of_ne hn, places_cons, ← Nat.mul_assoc, ← Nat.mul_assoc]
        by_cases hnext : start * n.toNat < UInt64.size
        · rw [if_pos hnext]
          exact ih (Nat.mul_pos hpos (toNat_pos hn)) hnext
        · have hover : ¬ start * n.toNat * places (leading shape) < UInt64.size := fun h =>
            hnext (Nat.lt_of_le_of_lt (Nat.le_mul_of_pos_right _ (places_leading_pos shape)) h)
          rw [if_neg hnext]
          exact iff_of_false nofun fun h => hover h.2

theorem elementCount_eq_some_iff {shape : List UInt64} {count : Nat} :
    elementCount shape = some count ↔
      places shape = count ∧ places (leading shape) < UInt64.size := by
  rw [elementCount, foldlM_eq_some_iff Nat.one_pos (by decide), Nat.one_mul, Nat.one_mul]

/-- What can be counted up to the first dimension without a place fits as a whole. -/
theorem places_lt_of_leading {shape : List UInt64} (h : places (leading shape) < UInt64.size) :
    places shape < UInt64.size := by
  by_cases hzero : 0 ∈ shape
  · have hmem : 0 ∈ shape.map UInt64.toNat := List.mem_map_of_mem hzero
    rw [places, List.prod_eq_zero hmem]
    decide
  · rwa [leading_of_zero_notMem hzero] at h

/-! ## Accepted scalars -/

/-- The scalars are what the element type and the shape call for. -/
structure Matches (e : Element) (shape : List UInt64) (values : List Scalar) : Prop where
  element : e ≠ .dynamic
  fits : places shape < UInt64.size
  size : places shape = values.length
  values : ∀ s ∈ values, s.ConvertsTo e

theorem isSome_ofScalars?_iff {e : Element} {shape : List UInt64} {values : List Scalar} :
    (ofScalars? e shape values).isSome ↔
      Matches e shape values ∧ places (leading shape) < UInt64.size := by
  constructor
  · intro h
    obtain ⟨c, hc⟩ := Option.isSome_iff_exists.mp h
    obtain ⟨hcount, p, hp, _⟩ := ofScalars?_eq_some_iff.mp hc
    obtain ⟨hsize, hleading⟩ := elementCount_eq_some_iff.mp hcount
    obtain ⟨helement, hvalues⟩ := Payload.isSome_ofScalars?_iff.mp (Option.isSome_of_eq_some hp)
    exact ⟨⟨helement, places_lt_of_leading hleading, hsize, hvalues⟩, hleading⟩
  · rintro ⟨h, hleading⟩
    have hcount := elementCount_eq_some_iff.mpr ⟨h.size, hleading⟩
    obtain ⟨p, hp⟩ := Option.isSome_iff_exists.mp
      (Payload.isSome_ofScalars?_iff.mpr ⟨h.element, h.values⟩)
    exact Option.isSome_of_eq_some (ofScalars?_eq_some_iff.mpr ⟨hcount, p, hp, rfl⟩)

theorem matches_iff_of_perm {e : Element} {shape shape' : List UInt64} (h : shape'.Perm shape)
    (values : List Scalar) : Matches e shape' values ↔ Matches e shape values := by
  have hplaces : places shape' = places shape := (h.map _).prod_eq
  constructor
  · rintro ⟨helement, hfits, hsize, hvalues⟩
    exact ⟨helement, hplaces ▸ hfits, hplaces ▸ hsize, hvalues⟩
  · rintro ⟨helement, hfits, hsize, hvalues⟩
    exact ⟨helement, hplaces ▸ hfits, hplaces ▸ hsize, hvalues⟩

/-- Scalars make a constant exactly when they match and the dimensions before the first one without
a place can be counted in a word.  Where every dimension has a place, matching is enough and the
order of the dimensions is of no importance. -/
theorem made_iff_matches (e : Element) (shape : List UInt64) (values : List Scalar) :
    ((ofScalars? e shape values).isSome ↔
      Matches e shape values ∧ places (leading shape) < UInt64.size) ∧
    (0 ∉ shape → ((ofScalars? e shape values).isSome ↔ Matches e shape values) ∧
      ∀ shape' : List UInt64, shape'.Perm shape →
        ((ofScalars? e shape' values).isSome ↔ (ofScalars? e shape values).isSome)) := by
  have hwhole {shape : List UInt64} (hzero : 0 ∉ shape) :
      (ofScalars? e shape values).isSome ↔ Matches e shape values := by
    rw [isSome_ofScalars?_iff, leading_of_zero_notMem hzero]
    exact and_iff_left_of_imp Matches.fits
  refine ⟨isSome_ofScalars?_iff, fun hzero => ⟨hwhole hzero, fun shape' hperm => ?_⟩⟩
  have hzero' : 0 ∉ shape' := fun h => hzero (hperm.mem_iff.mp h)
  rw [hwhole hzero, hwhole hzero', matches_iff_of_perm hperm]

/-- Integers and floats in one constant, whose dimensions may be exchanged. -/
def mixed : List Scalar :=
  [.int 1, .float ⟨0x4004000000000000⟩, .int (-7), .int 16777217, .float ⟨0x7FF0000000000000⟩, .int 0]

theorem made_iff_matches_mixed :
    (0 : UInt64) ∉ [2, 3] ∧ [3, 2].Perm [(2 : UInt64), 3] ∧
      Matches .f32 [2, 3] mixed ∧ (ofScalars? .f32 [3, 2] mixed).isSome := by
  have hzero : (0 : UInt64) ∉ [2, 3] := by decide
  have hperm : [3, 2].Perm [(2 : UInt64), 3] := .swap 2 3 []
  obtain ⟨hmatches, horder⟩ := (made_iff_matches .f32 [2, 3] mixed).2 hzero
  have hmade : (ofScalars? .f32 [2, 3] mixed).isSome := by decide
  exact ⟨hzero, hperm, hmatches.mp hmade, (horder [3, 2] hperm).mpr hmade⟩

/-- Of an empty constant with two dimensions that overflow together, the order of the dimensions
decides. -/
theorem not_made_of_zero_last :
    Matches .f32 [4294967296, 4294967296, 0] [] ∧
      ofScalars? .f32 [4294967296, 4294967296, 0] [] = none ∧
      (ofScalars? .f32 [0, 4294967296, 4294967296] []).isSome := by
  refine ⟨⟨nofun, by decide, by decide, nofun⟩, by decide, by decide⟩

end Constant

end OpGraph
