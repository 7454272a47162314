import OpGraph.Number.Decimal

/-!
# Decimals by scaling

A decimal is read in binary64 arithmetic: its digits are rounded to a datum, and that is multiplied
or divided by a power of ten, which rounds once more.  The result may therefore miss the nearest
code (`Decimal.code`), and what lies close to the end of the range may be refused.
-/

namespace OpGraph

namespace BinaryFormat

variable (f : BinaryFormat)

/-- The code of a product of two finite values. -/
def mul (a b : Nat) : Nat :=
  f.round (f.units a * f.units b) (Nat.pow 2 f.depth * Nat.pow 2 f.depth)

/-- The code of a quotient of two finite values. -/
def div (a b : Nat) : Nat := f.round (f.units a) (f.units b)

end BinaryFormat

namespace Decimal

/-- `10 ^ 308` is the last power of ten in the range of binary64. -/
def topPower : Nat := 308

def power (n : Nat) : Nat := BinaryFormat.double.round (Nat.pow 10 n) 1

/-- Divides by the top power so many times, and stops when nothing is left. -/
def lower (code : Nat) : (times : Nat) → Nat
  | 0 => code
  | times + 1 =>
      if code = 0 then 0 else lower (BinaryFormat.double.div code (power topPower)) times

/-- Nothing stands for a product beyond the range. -/
def raise (code n : Nat) : Option Nat :=
  if topPower < n then if code = 0 then some 0 else none
  else
    let product := BinaryFormat.double.mul code (power n)
    if product < BinaryFormat.double.infinity then some product else none

/-- The code of a datum times a power of ten. -/
def scale (code : Nat) (exponent : Int) : Option Nat :=
  if 0 ≤ exponent then raise code exponent.toNat
  else
    let times := ((-exponent).toNat - 1) / topPower
    let rest := (-exponent).toNat - times * topPower
    some (BinaryFormat.double.div (lower code times) (power rest))

/-- The code that a decimal is read as. -/
def scaled (d : Decimal) : Option Nat :=
  scale (BinaryFormat.double.round d.digits 1) d.exponent

end Decimal

end OpGraph
