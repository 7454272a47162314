/-!
# Binary floating point by counting

The nonnegative values of an IEEE 754 format, in ascending order, are numbered from zero by
their own bit patterns.  A format is therefore a map from codes to natural multiples of its
smallest step (`units`), and rounding goes back from a quotient of natural numbers to a code
(`round`).  Both live in exact arithmetic, so statements about them need nothing else.
-/

namespace OpGraph

/-- The integer nearest to `num / den`; a half goes to the even neighbour. -/
def nearest (num den : Nat) : Nat :=
  let low := num / den
  let rest := num % den
  if 2 * rest < den ∨ (2 * rest = den ∧ low % 2 = 0) then low else low + 1

@[simp] theorem nearest_one (n : Nat) : nearest n 1 = n := by
  simp [nearest, Nat.mod_one]

theorem nearest_of_dvd {num den : Nat} (pos : 0 < den) (h : den ∣ num) :
    nearest num den = num / den := by
  simp [nearest, Nat.mod_eq_zero_of_dvd h, pos]

/-- A binary interchange format. -/
structure BinaryFormat where
  /-- Bits of a full significand. -/
  precision : Nat
  /-- The smallest step is `2 ^ -depth`. -/
  depth : Nat
  /-- The code of infinity; every smaller code is finite. -/
  infinity : Nat

namespace BinaryFormat

def double : BinaryFormat := ⟨53, 1074, 0x7FF0000000000000⟩

def single : BinaryFormat := ⟨24, 149, 0x7F800000⟩

variable (f : BinaryFormat)

def binade : Nat := Nat.pow 2 (f.precision - 1)

/-- The value of a finite code, in smallest steps. -/
def units (code : Nat) : Nat :=
  if code < f.binade then code
  else (f.binade + code % f.binade) * Nat.pow 2 (code / f.binade - 1)

/-- The code nearest to `num / den`, ties to the even code. -/
def round (num den : Nat) : Nat :=
  let scaled := num * Nat.pow 2 f.depth
  let shift := (scaled / den).log2 + 1 - f.precision
  min f.infinity (shift * f.binade + nearest scaled (den * Nat.pow 2 shift))

/-- Carries a code from one format to another; a payload that is no number stays none. -/
def convert (g : BinaryFormat) (code : Nat) : Nat :=
  if code < f.infinity then g.round (f.units code) (Nat.pow 2 f.depth)
  else if code = f.infinity then g.infinity
  else g.infinity + ((code - f.infinity) * g.binade / f.binade ||| g.binade / 2)

end BinaryFormat

/-- A binary64 datum, told apart by its bits. -/
structure Binary64 where
  bits : UInt64
  deriving DecidableEq, Repr

/-- A binary32 datum, told apart by its bits. -/
structure Binary32 where
  bits : UInt32
  deriving DecidableEq, Repr

namespace Binary64

def ofCode (negative : Bool) (code : Nat) : Binary64 :=
  ⟨UInt64.ofNat (if negative then 0x8000000000000000 + code else code)⟩

def negative (x : Binary64) : Bool := 0x8000000000000000 ≤ x.bits.toNat

def code (x : Binary64) : Nat := x.bits.toNat % 0x8000000000000000

def finite (x : Binary64) : Bool := x.code < BinaryFormat.double.infinity

/-- The datum nearest to an integer. -/
def ofInt (n : Int) : Binary64 :=
  ofCode (n < 0) (BinaryFormat.double.round n.natAbs 1)

/-- The nearest binary32 datum, infinite when the value is out of its range. -/
def narrow (x : Binary64) : Binary32 :=
  let code := BinaryFormat.double.convert .single x.code
  ⟨UInt32.ofNat (if x.negative then 0x80000000 + code else code)⟩

theorem ofCode_code {negative : Bool} {n : Nat} (h : n < 0x8000000000000000) :
    (ofCode negative n).code = n := by
  cases negative <;> simp [ofCode, code] <;> omega

theorem ofCode_negative {negative : Bool} {n : Nat} (h : n < 0x8000000000000000) :
    (ofCode negative n).negative = negative := by
  cases negative <;> simp [ofCode, Binary64.negative] <;> omega

theorem ofCode_negative_code (x : Binary64) : ofCode x.negative x.code = x := by
  obtain ⟨b⟩ := x
  have hb := b.toNat_lt
  simp only [ofCode, negative, code, mk.injEq]
  apply UInt64.toNat_inj.mp
  by_cases h : 0x8000000000000000 ≤ b.toNat
  · simp only [h, decide_true, if_true, UInt64.toNat_ofNat']
    omega
  · simp only [h, decide_false, Bool.false_eq_true, if_false, UInt64.toNat_ofNat']
    omega

end Binary64

namespace Binary32

def negative (x : Binary32) : Bool := 0x80000000 ≤ x.bits.toNat

def code (x : Binary32) : Nat := x.bits.toNat % 0x80000000

def widen (x : Binary32) : Binary64 :=
  .ofCode x.negative (BinaryFormat.single.convert .double x.code)

end Binary32

end OpGraph
