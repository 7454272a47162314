import OpGraph.Number.Binary

/-!
# Decimals and binary64

A decimal rounds to the nearest code (`Decimal.code`).  The other way, `Binary64.decimal` takes
the fewest digits that round back, and of those the nearest; it tests every candidate by the
rounding itself, and ends at the exact expansion, so that what it gives always rounds back.
-/

namespace OpGraph

/-- The nonnegative value `digits * 10 ^ exponent`. -/
structure Decimal where
  digits : Nat
  exponent : Int
  deriving DecidableEq, Repr

namespace Decimal

/-- The nearest binary64 code.  The power of ten is left alone where the exponent settles the
answer. -/
def code (d : Decimal) : Nat :=
  if d.digits = 0 then 0
  else if 400 < d.exponent then BinaryFormat.double.infinity
  else if d.exponent < -(d.digits.log2 + 400 : Int) then 0
  else if 0 ≤ d.exponent then BinaryFormat.double.round (d.digits * Nat.pow 10 d.exponent.toNat) 1
  else BinaryFormat.double.round d.digits (Nat.pow 10 (-d.exponent).toNat)

def width (n : Nat) : Nat := (Nat.toDigits 10 n).length

/-- Moves trailing zeros into the exponent. -/
def trim (digits : Nat) (exponent : Int) : Decimal :=
  if h : digits ≠ 0 ∧ digits % 10 = 0 then trim (digits / 10) (exponent + 1)
  else ⟨digits, exponent⟩
termination_by digits
decreasing_by omega

end Decimal

namespace Binary64

def ofDecimal (negative : Bool) (d : Decimal) : Binary64 := ofCode negative d.code

/-- The place of the leading digit of `num / den`: `10 ^ p ≤ num / den < 10 ^ (p + 1)`. -/
def leadingPlace (num den : Nat) : Int :=
  if den ≤ num then (Decimal.width (num / den) : Int) - 1
  else -(Decimal.width ((den - 1) / num) : Int)

/-- The two neighbours of `num / den` among the multiples of `10 ^ place`, nearest first. -/
def neighbours (num den : Nat) (place : Int) : List Decimal :=
  let num := num * Nat.pow 10 (-place).toNat
  let den := den * Nat.pow 10 place.toNat
  let first := nearest num den
  let second := if first = num / den then first + 1 else first - 1
  [Decimal.trim first place, Decimal.trim second place]

/-- The absolute value of a finite datum in the fewest digits that round back to it. -/
def decimal (x : Binary64) : Decimal :=
  let num := BinaryFormat.double.units x.code
  let den := Nat.pow 2 BinaryFormat.double.depth
  if num = 0 then ⟨0, 0⟩
  else
    let top := leadingPlace num den
    let short := (List.range 17).findSome? fun (more : Nat) =>
      (neighbours num den (top - more)).find? fun d => d.code = x.code
    short.getD ⟨num * Nat.pow 5 BinaryFormat.double.depth, -BinaryFormat.double.depth⟩

end Binary64

end OpGraph
