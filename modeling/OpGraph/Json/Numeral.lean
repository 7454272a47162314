import OpGraph.Number.Scaling

/-!
# Numerals

A JSON number as written: its digits, how many of them follow the point, and the power of ten.
`scan` takes the longest numeral at the head of a text, `chars` writes one, and `number` says
what it stands for: an integer where the spelling is that of one and 64 bits hold it, and else
a binary64 datum, which is scaled from the digits that a word holds and need not be the nearest.
-/

namespace OpGraph.Json

inductive Number
  | integer (value : Int)
  | float (value : Binary64)
  deriving DecidableEq, Repr

structure Numeral where
  negative : Bool
  digits : Nat
  /-- How many of the digits follow the point; no point is written for none. -/
  places : Nat
  exponent : Option Int
  deriving DecidableEq, Repr

def padded : (width n : Nat) → List Char
  | 0, _ => []
  | width + 1, n => padded width (n / 10) ++ [Nat.digitChar (n % 10)]

@[simp] theorem padded_zero (n : Nat) : padded 0 n = [] := rfl

@[simp] theorem length_padded (width n : Nat) : (padded width n).length = width := by
  induction width generalizing n with
  | zero => rfl
  | succ width ih => simp [padded, ih]

namespace Numeral

def ofInt (n : Int) : Numeral := ⟨n < 0, n.natAbs, 0, none⟩

/-- Plain notation, with at least one decimal, for a leading digit from the fifth decimal to
the sixteenth place before the point; scientific notation elsewhere. -/
def ofDecimal (negative : Bool) (d : Decimal) : Numeral :=
  let width := Decimal.width d.digits
  let leading := d.exponent + width - 1
  if leading < -5 ∨ 15 < leading then ⟨negative, d.digits, width - 1, some leading⟩
  else if 0 ≤ d.exponent then ⟨negative, d.digits * Nat.pow 10 (d.exponent.toNat + 1), 1, none⟩
  else ⟨negative, d.digits, (-d.exponent).toNat, none⟩

def ofFloat (x : Binary64) : Numeral := ofDecimal x.negative x.decimal

/-- Takes digits in while a word holds them, and counts those that are left out. -/
def gather (significand : Nat) : List Char → Nat × Nat
  | [] => (significand, 0)
  | c :: rest =>
      let longer := 10 * significand + (c.toNat - '0'.toNat)
      if longer < UInt64.size then gather longer rest else (significand, rest.length + 1)

/-- The value in the digits that a word holds.  A digit left out before the point raises the
exponent; after the point it is only lost.  The two parts are cut off apart, so that a digit may
still follow the point when one before it was left out. -/
def held (n : Numeral) : Decimal :=
  let (whole, dropped) := gather 0 (Nat.toDigits 10 (n.digits / Nat.pow 10 n.places))
  let (significand, lost) := gather whole (padded n.places n.digits)
  ⟨significand, n.exponent.getD 0 + dropped - (n.places - lost : Nat)⟩

def float (n : Numeral) : Option Binary64 := n.held.scaled.map (Binary64.ofCode n.negative)

/-- Nothing stands for a numeral beyond the range of binary64. -/
def number (n : Numeral) : Option Number :=
  if n.places = 0 ∧ n.exponent = none ∧
      (if n.negative then 0 < n.digits ∧ Int64.minValue.toInt ≤ -n.digits
        else n.digits < UInt64.size) then
    some (.integer (if n.negative then -n.digits else n.digits))
  else n.float.map .float

def exponentChars (e : Int) : List Char :=
  'e' :: (if e < 0 then '-' else '+') :: Nat.toDigits 10 e.natAbs

def chars (n : Numeral) : List Char :=
  (if n.negative then ['-'] else []) ++ Nat.toDigits 10 (n.digits / Nat.pow 10 n.places) ++
    (if n.places = 0 then [] else '.' :: padded n.places n.digits) ++
    n.exponent.elim [] exponentChars

def natural (ds : List Char) : Nat := Nat.ofDigitChars 10 ds 0

def scanFraction : List Char → Option (List Char × List Char)
  | '.' :: rest =>
      if rest.takeWhile Char.isDigit = [] then none
      else some (rest.takeWhile Char.isDigit, rest.dropWhile Char.isDigit)
  | rest => some ([], rest)

def scanPower (negative : Bool) (cs : List Char) : Option (Option Int × List Char) :=
  if cs.takeWhile Char.isDigit = [] then none
  else
    let power : Int := natural (cs.takeWhile Char.isDigit)
    some (some (if negative then -power else power), cs.dropWhile Char.isDigit)

def scanExponent : List Char → Option (Option Int × List Char)
  | [] => some (none, [])
  | c :: rest =>
      if c = 'e' ∨ c = 'E' then
        match rest with
        | '-' :: rest => scanPower true rest
        | '+' :: rest => scanPower false rest
        | rest => scanPower false rest
      else some (none, c :: rest)

/-- A numeral without its sign.  A leading zero stands alone. -/
def scanUnsigned (negative : Bool) (cs : List Char) : Option (Numeral × List Char) :=
  let whole := cs.takeWhile Char.isDigit
  if whole = [] ∨ (whole.head? = some '0' ∧ 1 < whole.length) then none
  else
    (scanFraction (cs.dropWhile Char.isDigit)).bind fun (fraction, rest) =>
      (scanExponent rest).map fun (exponent, rest) =>
        (⟨negative, natural (whole ++ fraction), fraction.length, exponent⟩, rest)

def scan : List Char → Option (Numeral × List Char)
  | '-' :: rest => scanUnsigned true rest
  | cs => scanUnsigned false cs

theorem length_of_scanFraction {cs rest ds : List Char}
    (h : scanFraction cs = some (ds, rest)) : rest.length ≤ cs.length := by
  unfold scanFraction at h
  split at h
  · split at h
    · simp at h
    · simp only [Option.some.injEq, Prod.mk.injEq] at h
      obtain ⟨_, rfl⟩ := h
      exact Nat.le_succ_of_le (List.dropWhile_sublist _).length_le
  · simp_all

theorem length_of_scanPower {negative : Bool} {cs rest : List Char} {e : Option Int}
    (h : scanPower negative cs = some (e, rest)) : rest.length ≤ cs.length := by
  unfold scanPower at h
  split at h
  · simp at h
  · simp only [Option.some.injEq, Prod.mk.injEq] at h
    obtain ⟨_, rfl⟩ := h
    exact (List.dropWhile_sublist _).length_le

theorem length_of_scanExponent {cs rest : List Char} {e : Option Int}
    (h : scanExponent cs = some (e, rest)) : rest.length ≤ cs.length := by
  unfold scanExponent at h
  split at h
  · simp_all
  · split at h
    · split at h
      all_goals
        have := length_of_scanPower h
        simp only [List.length_cons]
        omega
    · simp_all

theorem length_of_scanUnsigned {negative : Bool} {cs rest : List Char} {n : Numeral}
    (h : scanUnsigned negative cs = some (n, rest)) : rest.length < cs.length := by
  unfold scanUnsigned at h
  simp only at h
  split at h
  · simp at h
  · rename_i hw
    simp only [Option.bind_eq_some_iff, Option.map_eq_some_iff, Prod.exists, Prod.mk.injEq] at h
    obtain ⟨ds, cs', hf, e, cs'', he, _, rfl⟩ := h
    have h1 := length_of_scanFraction hf
    have h2 := length_of_scanExponent he
    have h3 := congrArg List.length (List.takeWhile_append_dropWhile (p := Char.isDigit) (l := cs))
    have h4 : cs.takeWhile Char.isDigit ≠ [] := fun h => hw (.inl h)
    have h5 := List.length_pos_iff.mpr h4
    simp only [List.length_append] at h3
    omega

theorem length_of_scan {cs rest : List Char} {n : Numeral}
    (h : scan cs = some (n, rest)) : rest.length < cs.length := by
  unfold scan at h
  split at h
  · exact Nat.lt_succ_of_lt (length_of_scanUnsigned h)
  · exact length_of_scanUnsigned h

end Numeral

end OpGraph.Json
