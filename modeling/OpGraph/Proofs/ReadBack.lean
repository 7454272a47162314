import OpGraph.Proofs.Constants
import OpGraph.Proofs.Narrowing

/-!
# Reading constants back

The elements of a constant are read back as many and in the order in which they were given.  The
storage settles every number once and for all: what is read back from a constant makes the same
constant again.
-/

namespace OpGraph

/-! ## One element -/

namespace Scalar

/-- What the storage of an element type makes of a scalar that it takes. -/
def settled : Element → Scalar → Scalar
  | .f32, int n => .float (Binary64.ofInt n.toInt).narrow.widen
  | .f32, .float x => .float x.narrow.widen
  | .f64, int n => .float (.ofInt n.toInt)
  | _, s => s

theorem settled_of_exact {e : Element} (h : e ∈ [.i8, .i32, .i64, .u8, .bool]) (s : Scalar) :
    s.settled e = s := by
  cases e with
  | f32 | f64 | dynamic => exact absurd h (by decide)
  | i8 | i32 | i64 | u8 | bool => rfl

variable {s : Scalar}

theorem settled_f32 {x : Binary32} (h : s.toBinary32 = some x) :
    .float x.widen = s.settled .f32 ∧ toBinary32 (.float x.widen) = some x := by
  cases s with
  | int | float =>
      obtain rfl := Option.some.inj h
      exact ⟨rfl, congrArg some (Binary64.narrow_widen_narrow _)⟩
  | bool => cases h

theorem settled_f64 {x : Binary64} (h : s.toBinary64 = some x) :
    .float x = s.settled .f64 ∧ toBinary64 (.float x) = some x := by
  cases s with
  | int | float =>
      obtain rfl := Option.some.inj h
      exact ⟨rfl, rfl⟩
  | bool => cases h

theorem int_of_toInt8_eq_some {n : Int8} (h : s.toInt8 = some n) : .int n.toInt64 = s := by
  cases s with
  | int m =>
      obtain ⟨⟨hlow, hhigh⟩, hn⟩ := Option.ite_none_right_eq_some.mp h
      obtain rfl := Option.some.inj hn
      rw [int.injEq, ← Int64.toInt_inj, Int8.toInt_toInt64,
        Int8.toInt_ofInt_of_le hlow (Int.lt_add_one_of_le hhigh)]
  | float | bool => cases h

theorem int_of_toInt32_eq_some {n : Int32} (h : s.toInt32 = some n) : .int n.toInt64 = s := by
  cases s with
  | int m =>
      obtain ⟨⟨hlow, hhigh⟩, hn⟩ := Option.ite_none_right_eq_some.mp h
      obtain rfl := Option.some.inj hn
      rw [int.injEq, ← Int64.toInt_inj, Int32.toInt_toInt64,
        Int32.toInt_ofInt_of_le hlow (Int.lt_add_one_of_le hhigh)]
  | float | bool => cases h

theorem int_of_toInt64_eq_some {n : Int64} (h : s.toInt64 = some n) : .int n = s := by
  cases s with
  | int m => exact congrArg int (Option.some.inj h).symm
  | float | bool => cases h

theorem int_of_toUInt8_eq_some {n : UInt8} (h : s.toUInt8 = some n) :
    .int (.ofNat n.toNat) = s := by
  cases s with
  | int m =>
      obtain ⟨⟨hlow, hhigh⟩, hn⟩ := Option.ite_none_right_eq_some.mp h
      obtain rfl := Option.some.inj hn
      have hsize : UInt8.size = 2 ^ 8 := rfl
      have hlt : m.toInt.toNat < 2 ^ 63 := by omega
      rw [int.injEq, ← Int64.toInt_inj, UInt8.toNat_ofNat_of_lt' (by omega),
        Int64.toInt_ofNat_of_lt hlt, Int.toNat_of_nonneg hlow]
  | float | bool => cases h

theorem bool_of_toBool_eq_some {b : Bool} (h : s.toBool = some b) : .bool b = s := by
  cases s with
  | bool => exact congrArg bool (Option.some.inj h).symm
  | int | float => cases h

end Scalar

/-! ## All elements -/

section Storage

variable {α : Type} {store : Scalar → Option α} {load : α → Scalar} {e : Element}
  {values : List Scalar}

/-- What an exact storage holds is the scalars themselves. -/
theorem settled_of_load_eq (he : e ∈ [.i8, .i32, .i64, .u8, .bool])
    (hload : ∀ {s x}, store s = some x → load x = s) (s : Scalar) (x : α) (h : store s = some x) :
    load x = s.settled e ∧ store (load x) = some x := by
  rw [Scalar.settled_of_exact he, hload h]
  exact ⟨rfl, h⟩

/-- A storage that settles one scalar settles them all, each in its place. -/
theorem mapM_load_of_mapM_store {stored : List α}
    (hload : ∀ s x, store s = some x → load x = s.settled e ∧ store (load x) = some x)
    (h : values.mapM store = some stored) :
    stored.map load = values.map (Scalar.settled e) ∧
      (stored.map load).mapM store = some stored := by
  rw [mapM_eq_some_iff_forall₂] at h ⊢
  rw [List.forall₂_map_left_iff]
  induction h with
  | nil => exact ⟨rfl, .nil⟩
  | cons hx _ ih =>
      obtain ⟨hsettled, hstore⟩ := hload _ _ hx
      exact ⟨congrArg₂ List.cons hsettled ih.1, .cons hstore ih.2⟩

namespace Payload

theorem settled_of_storage {wrap : List α → Payload} {p : Payload}
    (hwrap : ∀ values, ofScalars? values e = (values.mapM store).map wrap)
    (hscalars : ∀ stored, (wrap stored).scalars = stored.map load)
    (hload : ∀ s x, store s = some x → load x = s.settled e ∧ store (load x) = some x)
    (h : ofScalars? values e = some p) :
    p.scalars = values.map (Scalar.settled e) ∧ ofScalars? p.scalars e = some p := by
  rw [hwrap] at h
  obtain ⟨stored, hstored, rfl⟩ := Option.map_eq_some_iff.mp h
  obtain ⟨hsettled, hagain⟩ := mapM_load_of_mapM_store hload hstored
  rw [hscalars, hwrap, hagain]
  exact ⟨hsettled, rfl⟩

theorem settled_of_ofScalars?_eq_some {p : Payload} (h : ofScalars? values e = some p) :
    p.scalars = values.map (Scalar.settled e) ∧ ofScalars? p.scalars e = some p := by
  cases e with
  | dynamic => cases h
  | f32 => exact settled_of_storage (fun _ => rfl) (fun _ => rfl) (fun _ _ => Scalar.settled_f32) h
  | f64 => exact settled_of_storage (fun _ => rfl) (fun _ => rfl) (fun _ _ => Scalar.settled_f64) h
  | i8 =>
      exact settled_of_storage (fun _ => rfl) (fun _ => rfl)
        (settled_of_load_eq (by decide) Scalar.int_of_toInt8_eq_some) h
  | i32 =>
      exact settled_of_storage (fun _ => rfl) (fun _ => rfl)
        (settled_of_load_eq (by decide) Scalar.int_of_toInt32_eq_some) h
  | i64 =>
      exact settled_of_storage (fun _ => rfl) (fun _ => rfl)
        (settled_of_load_eq (by decide) Scalar.int_of_toInt64_eq_some) h
  | u8 =>
      exact settled_of_storage (fun _ => rfl) (fun _ => rfl)
        (settled_of_load_eq (by decide) Scalar.int_of_toUInt8_eq_some) h
  | bool =>
      exact settled_of_storage (fun _ => rfl) (fun _ => rfl)
        (settled_of_load_eq (by decide) Scalar.bool_of_toBool_eq_some) h

end Payload

end Storage

/-! ## Constants -/

namespace Constant

theorem scalars_of_ofScalars?_eq_some {e : Element} {shape : List UInt64} {values : List Scalar}
    {c : Constant} (h : ofScalars? e shape values = some c) :
    c.scalars = some (values.map (Scalar.settled e)) ∧
      ofScalars? e shape (values.map (Scalar.settled e)) = some c := by
  obtain ⟨_, _, hmade⟩ := of_ofScalars?_eq_some h
  obtain ⟨hcount, p, hp, rfl⟩ := ofScalars?_eq_some_iff.mp h
  obtain ⟨hsettled, hagain⟩ := Payload.settled_of_ofScalars?_eq_some hp
  rw [hsettled] at hagain
  refine ⟨hmade.scalars_eq.trans (congrArg some hsettled), ?_⟩
  exact ofScalars?_eq_some_iff.mpr ⟨by rwa [List.length_map], p, hagain, rfl⟩

/-- A constant has the shape that it was made with and gives back its scalars, each in its place:
the same ones where the storage is exact, and otherwise those that the storage has settled, which
make the same constant again. -/
theorem read_back_of_made {e : Element} {shape : List UInt64} {values : List Scalar}
    {c : Constant} (h : ofScalars? e shape values = some c) :
    c.shape = shape ∧ c.rank = shape.length ∧
      ∃ again, c.scalars = some again ∧ again.length = values.length ∧
        again = values.map (Scalar.settled e) ∧
        (e ∈ [.i8, .i32, .i64, .u8, .bool] ∨ e = .f64 ∧ (∀ s ∈ values, ∃ x, s = .float x) →
          again = values) ∧
        ofScalars? e shape again = some c := by
  obtain ⟨_, hshape, _⟩ := of_ofScalars?_eq_some h
  obtain ⟨hscalars, hagain⟩ := scalars_of_ofScalars?_eq_some h
  refine ⟨hshape, congrArg List.length hshape, _, hscalars, List.length_map _, rfl,
    fun hexact => ?_, hagain⟩
  have hkept : ∀ s ∈ values, s.settled e = id s := by
    rcases hexact with he | ⟨rfl, hfloat⟩
    · exact fun s _ => Scalar.settled_of_exact he s
    · intro s hs
      obtain ⟨x, rfl⟩ := hfloat s hs
      rfl
  calc
    values.map (Scalar.settled e) = values.map id := List.map_congr_left hkept
    _ = values := List.map_id values

/-- An integer of 25 bits and a signalling payload that is no number, which binary32 both settles. -/
theorem read_back_of_made_settled :
    ∃ c again, ofScalars? .f32 [2] [.int 16777217, .float ⟨0x7FF0000000000001⟩] = some c ∧
      c.scalars = some again ∧
      again = [.float ⟨0x4170000000000000⟩, .float ⟨0x7FF8000000000000⟩] ∧
      ofScalars? .f32 [2] again = some c := by
  have hmade : (ofScalars? .f32 [2] [.int 16777217, .float ⟨0x7FF0000000000001⟩]).isSome := by
    decide +kernel
  obtain ⟨c, hc⟩ := Option.isSome_iff_exists.mp hmade
  obtain ⟨_, _, again, hscalars, _, hsettled, _, hagain⟩ := read_back_of_made hc
  refine ⟨c, again, hc, hscalars, hsettled.trans ?_, hagain⟩
  decide +kernel

end Constant

end OpGraph
