import OpGraph.Json.Layout
import OpGraph.Proofs.Json.Numerals
import OpGraph.Proofs.Scaling

/-!
# Written numbers

The numeral of an integer stands for that integer.  The numeral of a finite datum is nearest to that
datum, and so the numerals of two data differ, but it need not be read as the datum: the reader
scales, which goes wrong by a step now and then.  `Binary64.ReadsBack` says of a datum that it does
not; it holds where the numeral has few digits and a small power of ten.  Every number that is read
is a finite datum or an integer of a word.
-/

namespace OpGraph

/-! ## Decimals -/

namespace Decimal

/-- The exact expansion of a value rounds to the code of the value. -/
theorem code_expansion {code : Nat} (h : code < BinaryFormat.double.infinity)
    (hunits : BinaryFormat.double.units code ≠ 0) :
    (⟨BinaryFormat.double.units code * 5 ^ BinaryFormat.double.depth,
      -BinaryFormat.double.depth⟩ : Decimal).code = code := by
  have hround := BinaryFormat.round_units (f := .double) (by decide) h
    (Nat.pow_pos (by decide) : 0 < 5 ^ BinaryFormat.double.depth)
  have hdepth : 0 < BinaryFormat.double.depth := by decide
  generalize BinaryFormat.double.units code = units at hunits hround ⊢
  generalize BinaryFormat.double.depth = depth at hdepth hround ⊢
  have hdigits : units * 5 ^ depth ≠ 0 :=
    Nat.mul_ne_zero hunits (Nat.ne_of_gt (Nat.pow_pos (by decide)))
  have hlog : depth ≤ (units * 5 ^ depth).log2 := by
    apply (Nat.le_log2 hdigits).mpr
    calc 2 ^ depth ≤ 5 ^ depth := Nat.pow_le_pow_left (by decide) depth
      _ ≤ units * 5 ^ depth := Nat.le_mul_of_pos_left _ (Nat.pos_of_ne_zero hunits)
  have hhigh : ¬ (400 < -(depth : Int)) := by omega
  have hlow : ¬ (-(depth : Int) < -((units * 5 ^ depth).log2 + 400 : Int)) := by omega
  have hsign : ¬ (0 ≤ -(depth : Int)) := by omega
  rw [← Nat.mul_pow] at hround
  simp only [Decimal.code]
  rw [if_neg hdigits, if_neg hhigh, if_neg hlow, if_neg hsign, Int.neg_neg, Int.toNat_natCast]
  exact hround

theorem width_pos (n : Nat) : 0 < width n := List.length_pos_iff.mpr Nat.toDigits_ne_nil

/-- A power of ten may be written out in the digits, and one decimal more with it. -/
theorem code_shift {digits : Nat} {exponent : Int} (h : 0 ≤ exponent) (hlow : exponent ≤ 400) :
    (⟨digits * 10 ^ (exponent.toNat + 1), -1⟩ : Decimal).code =
      (⟨digits, exponent⟩ : Decimal).code := by
  rw [code_of_nonneg h hlow, code_of_neg (by decide) (by decide), Nat.pow_succ, ← Nat.mul_assoc]
  exact BinaryFormat.round_mul_right .double (by decide) (digits * 10 ^ exponent.toNat) 1

end Decimal

namespace Binary64

theorem code_getD {short : Option Decimal} {exact : Decimal} {code : Nat}
    (hshort : ∀ d, short = some d → d.code = code) (hexact : exact.code = code) :
    (short.getD exact).code = code := by
  cases short with
  | none => exact hexact
  | some d => exact hshort d rfl

theorem decimal_code {x : Binary64} (h : x.finite) : x.decimal.code = x.code := by
  have hcode : x.code < BinaryFormat.double.infinity := of_decide_eq_true h
  have hexact := Decimal.code_expansion hcode
  simp only [decimal, Nat.pow_eq]
  by_cases hunits : BinaryFormat.double.units x.code = 0
  · rw [if_pos hunits, BinaryFormat.units_eq_zero_iff.mp hunits]
    rfl
  · specialize hexact hunits
    rw [if_neg hunits]
    generalize BinaryFormat.double.depth = depth at hexact ⊢
    apply code_getD _ hexact
    -- Nothing is known of how candidates are found: each was tested by the rounding itself.
    intro d hd
    obtain ⟨more, _, hfound⟩ := List.exists_of_findSome?_eq_some hd
    simpa using List.find?_some hfound

theorem ofDecimal_decimal {x : Binary64} (h : x.finite) : ofDecimal x.negative x.decimal = x := by
  rw [ofDecimal, decimal_code h, ofCode_negative_code]

theorem finite_ofCode {negative : Bool} {code : Nat} (h : code < BinaryFormat.double.infinity) :
    (ofCode negative code).finite := by
  rw [finite, ofCode_code]
  · exact decide_eq_true h
  · exact Nat.lt_trans h (by decide)

theorem finite_ofInt {n : Int} (h : n.natAbs < UInt64.size) : (ofInt n).finite :=
  finite_ofCode (Decimal.round_word_lt_infinity h)

end Binary64

/-! ## Numerals -/

namespace Json.Numeral

/-! ### The nearest datum -/

/-- The datum nearest to a numeral, whatever the numeral is read as. -/
def nearest (n : Numeral) : Binary64 :=
  .ofDecimal n.negative ⟨n.digits, n.exponent.getD 0 - n.places⟩

theorem nearest_ofDecimal (negative : Bool) (d : Decimal) :
    (ofDecimal negative d).nearest = .ofDecimal negative d := by
  have hwidth := Decimal.width_pos d.digits
  simp only [ofDecimal]
  split
  · have hexponent : d.exponent + (Decimal.width d.digits : Int) - 1 -
        (Decimal.width d.digits - 1 : Nat) = d.exponent := by omega
    simp only [nearest, Option.getD_some, hexponent]
  · split
    · rename_i hleading hexponent
      rw [not_or] at hleading
      exact congrArg (Binary64.ofCode negative) (Decimal.code_shift hexponent (by omega))
    · have hexponent : (0 : Int) - ((-d.exponent).toNat : Nat) = d.exponent := by omega
      simp only [nearest, Option.getD_none, hexponent]

theorem nearest_ofFloat {x : Binary64} (h : x.finite) : (ofFloat x).nearest = x := by
  rw [ofFloat, nearest_ofDecimal, Binary64.ofDecimal_decimal h]

/-- A decimal is never spelled like an integer. -/
theorem not_integer_ofDecimal (negative : Bool) (d : Decimal) :
    ¬ ((ofDecimal negative d).places = 0 ∧ (ofDecimal negative d).exponent = none) := by
  simp only [ofDecimal]
  split
  · rintro ⟨_, ⟨⟩⟩
  · split
    · rintro ⟨⟨⟩, _⟩
    · rintro ⟨hplaces, _⟩
      simp only at hplaces
      omega

/-- Finite data are told apart by their numerals. -/
theorem ofFloat_inj {x y : Binary64} (hx : x.finite) (hy : y.finite)
    (h : ofFloat x = ofFloat y) : x = y := by
  rw [← nearest_ofFloat hx, h, nearest_ofFloat hy]

theorem ofInt_inj {n m : Int} (h : ofInt n = ofInt m) : n = m := by
  simp only [ofInt, Numeral.mk.injEq, decide_eq_decide] at h
  omega

theorem ofInt_ne_ofFloat (n : Int) (x : Binary64) : ofInt n ≠ ofFloat x := by
  intro h
  apply not_integer_ofDecimal x.negative x.decimal
  rw [← ofFloat, ← h]
  exact ⟨rfl, rfl⟩

/-! ### The digits that are held -/

theorem gather_lt {significand : Nat} (h : significand < UInt64.size) (cs : List Char) :
    (gather significand cs).1 < UInt64.size := by
  induction cs generalizing significand with
  | nil => exact h
  | cons c cs ih =>
      simp only [gather]
      split
      · rename_i hlonger
        exact ih hlonger
      · exact h

/-- No digit is left out of a number that a word holds. -/
theorem gather_eq {significand : Nat} {cs : List Char}
    (h : Nat.ofDigitChars 10 cs significand < UInt64.size) :
    gather significand cs = (Nat.ofDigitChars 10 cs significand, 0) := by
  induction cs generalizing significand with
  | nil => rfl
  | cons c cs ih =>
      rw [Nat.ofDigitChars_cons] at h ⊢
      have hlonger : 10 * significand + (c.toNat - '0'.toNat) < UInt64.size := by
        rw [Nat.ofDigitChars_eq_ofDigitChars_zero] at h
        have hpow := Nat.le_mul_of_pos_left (10 * significand + (c.toNat - '0'.toNat))
          (Nat.pow_pos (by decide) : 0 < 10 ^ cs.length)
        omega
      simp only [gather]
      rw [if_pos hlonger, ih h]

theorem held_digits_lt (n : Numeral) : n.held.digits < UInt64.size :=
  gather_lt (gather_lt (by decide) _) _

theorem held_eq {n : Numeral} (h : n.digits < UInt64.size) :
    n.held = ⟨n.digits, n.exponent.getD 0 - n.places⟩ := by
  have hwhole : gather 0 (Nat.toDigits 10 (n.digits / 10 ^ n.places)) =
      (n.digits / 10 ^ n.places, 0) := by
    have hvalue := Nat.ofDigitChars_ten_toDigits (n := n.digits / 10 ^ n.places)
    have hle := Nat.div_le_self n.digits (10 ^ n.places)
    rw [gather_eq (by omega), hvalue]
  have hall : gather (n.digits / 10 ^ n.places) (padded n.places n.digits) = (n.digits, 0) := by
    have hvalue := ofDigitChars_padded n.places n.digits (n.digits / 10 ^ n.places)
    rw [Nat.div_add_mod'] at hvalue
    rw [gather_eq (by omega), hvalue]
  simp [held, hwhole, hall]

theorem finite_of_float_eq_some {n : Numeral} {x : Binary64} (h : n.float = some x) : x.finite := by
  obtain ⟨code, hcode, rfl⟩ := Option.map_eq_some_iff.mp h
  exact Binary64.finite_ofCode (Decimal.lt_infinity_of_scaled_eq_some n.held_digits_lt hcode)

/-- Few digits and a small power of ten are read as the nearest datum. -/
theorem float_eq_nearest {n : Numeral} (hdigits : n.digits ≤ 2 ^ 53)
    (hlow : -22 ≤ n.exponent.getD 0 - (n.places : Int))
    (hhigh : n.exponent.getD 0 - (n.places : Int) ≤ 22) : n.float = some n.nearest := by
  have hword : 2 ^ 53 < UInt64.size := by decide
  rw [float, held_eq (Nat.lt_of_le_of_lt hdigits hword),
    Decimal.scaled_eq_code hdigits hlow hhigh]
  rfl

/-! ### What a numeral stands for -/

theorem number_ofInt {n : Int} (hlow : Int64.minValue.toInt ≤ n) (hhigh : n < UInt64.size) :
    (ofInt n).number = some (.integer n) := by
  by_cases hn : n < 0
  · have habs : (-(n.natAbs : Int)) = n := by omega
    simp only [number, ofInt, hn, decide_true, if_true, habs]
    rw [if_pos ⟨trivial, trivial, by omega, hlow⟩]
  · have habs : (n.natAbs : Int) = n := by omega
    simp only [number, ofInt, hn, decide_false, Bool.false_eq_true, if_false, habs]
    rw [if_pos ⟨trivial, trivial, by omega⟩]

theorem number_cases {n : Numeral} {v : Number} (h : n.number = some v) :
    (∃ i : Int, v = .integer i ∧ Int64.minValue.toInt ≤ i ∧ i < UInt64.size) ∨
      ∃ x : Binary64, v = .float x ∧ x.finite := by
  have hmin : Int64.minValue.toInt ≤ 0 := by decide
  rw [number] at h
  by_cases hinteger : n.places = 0 ∧ n.exponent = none ∧
      (if n.negative then 0 < n.digits ∧ Int64.minValue.toInt ≤ -n.digits
        else n.digits < UInt64.size)
  · rw [if_pos hinteger, Option.some.injEq] at h
    refine .inl ⟨_, h.symm, ?_⟩
    have hrange := hinteger.2.2
    by_cases hnegative : n.negative
    · rw [if_pos hnegative] at hrange ⊢
      constructor
      · exact hrange.2
      · have hmax : (0 : Int) < UInt64.size := by decide
        omega
    · rw [if_neg hnegative] at hrange ⊢
      constructor
      · omega
      · exact Int.ofNat_lt.mpr hrange
  · rw [if_neg hinteger] at h
    obtain ⟨x, hx, rfl⟩ := Option.map_eq_some_iff.mp h
    exact .inr ⟨x, rfl, finite_of_float_eq_some hx⟩

end Json.Numeral

/-! ## Reading back -/

namespace Binary64

open Json

/-- The text of a datum reads back to it. -/
def ReadsBack (x : Binary64) : Prop := (Numeral.ofFloat x).number = some (.float x)

instance : DecidablePred ReadsBack := fun x =>
  inferInstanceAs (Decidable ((Numeral.ofFloat x).number = some (.float x)))

theorem readsBack_of_few_digits {x : Binary64} (h : x.finite)
    (hdigits : (Numeral.ofFloat x).digits ≤ 2 ^ 53)
    (hlow : -22 ≤ (Numeral.ofFloat x).exponent.getD 0 - ((Numeral.ofFloat x).places : Int))
    (hhigh : (Numeral.ofFloat x).exponent.getD 0 - ((Numeral.ofFloat x).places : Int) ≤ 22) :
    x.ReadsBack := by
  have hfloat := Numeral.float_eq_nearest hdigits hlow hhigh
  rw [Numeral.nearest_ofFloat h] at hfloat
  rw [ReadsBack, Numeral.number, if_neg, hfloat, Option.map_some]
  rintro ⟨hplaces, hexponent, _⟩
  exact Numeral.not_integer_ofDecimal _ _ ⟨hplaces, hexponent⟩

/-- `1e-30` is read as the datum below the one it is written for. -/
example : ¬ ReadsBack ⟨0x39B4484BFEEBC2A0⟩ := by decide +kernel

end Binary64

end OpGraph
