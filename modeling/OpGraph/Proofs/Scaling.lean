import OpGraph.Number.Scaling
import OpGraph.Proofs.Grid

/-!
# Scaling

Scaling the digits of a word gives a finite code or nothing.  It gives the nearest code where the
digits and the power of ten are values of binary64 themselves, for then only one step rounds.
-/

namespace OpGraph

namespace BinaryFormat

variable {f : BinaryFormat}

theorem round_zero (hp : 0 < f.precision) {den : Nat} (hden : 0 < den) : f.round 0 den = 0 := by
  have hshift : 0 + 1 - f.precision = 0 := by omega
  simp [round, nearest, hshift, hden]

/-- What a format has is rounded to itself. -/
theorem units_round {m e : Nat} (hp : 0 < f.precision) (hm : m ≤ 2 * f.binade)
    (hlt : m * 2 ^ (e + f.depth) < f.units f.infinity) :
    f.units (f.round (m * 2 ^ e) 1) = m * 2 ^ e * 2 ^ f.depth := by
  obtain ⟨code, hcode⟩ := f.exists_units_eq hm (e + f.depth)
  have hfinite : code < f.infinity := f.units_strictMono.lt_iff_lt.mp (hcode ▸ hlt)
  have hunits : f.units code = m * 2 ^ e * 2 ^ f.depth := by rw [hcode, Nat.pow_add, Nat.mul_assoc]
  have hround : f.round (m * 2 ^ e) 1 = code := by
    rw [← round_mul_right f (Nat.two_pow_pos f.depth), ← hunits, Nat.one_mul]
    simpa using round_units hp hfinite Nat.one_pos
  rw [hround, hunits]

/-- A quotient by one or more is finite. -/
theorem div_lt_infinity {last a b : Nat} (hp : 1 < f.precision) (hinfinity : f.infinity = last + 1)
    (hodd : last % 2 = 1) (ha : a < f.infinity) (hb : 2 ^ f.depth ≤ f.units b) :
    f.div a b < f.infinity := by
  have hden : 0 < f.units b := Nat.lt_of_lt_of_le (Nat.two_pow_pos _) hb
  have hlast : f.units a ≤ f.units last := f.units_strictMono.monotone (by omega)
  have hnext : f.units last < f.units (last + 1) := f.units_strictMono (Nat.lt_succ_self last)
  rw [div, round_lt_infinity_iff hp hden hinfinity hodd]
  calc
    2 * (f.units a * 2 ^ f.depth) ≤ 2 * (f.units last * f.units b) :=
      Nat.mul_le_mul_left 2 (Nat.mul_le_mul hlast hb)
    _ = 2 * f.units last * f.units b := (Nat.mul_assoc _ _ _).symm
    _ < (f.units last + f.units (last + 1)) * f.units b :=
      Nat.mul_lt_mul_of_pos_right (by omega) hden

end BinaryFormat

namespace Decimal

open BinaryFormat

/-! ## Finite results -/

theorem power_lt_infinity {n : Nat} (hn : n ≤ topPower) : power n < double.infinity := by
  have htop : 2 * (10 ^ topPower * 2 ^ double.depth) <
      (double.units (double.infinity - 1) + double.units (double.infinity - 1 + 1)) * 1 := by
    decide +kernel
  have hpow : 10 ^ n * 2 ^ double.depth ≤ 10 ^ topPower * 2 ^ double.depth :=
    Nat.mul_le_mul_right _ (Nat.pow_le_pow_right (by decide) hn)
  exact (round_lt_infinity_iff (by decide) Nat.one_pos rfl (by decide)).mpr
    (Nat.lt_of_le_of_lt (Nat.mul_le_mul_left 2 hpow) htop)

theorem one_le_power {n : Nat} (hn : n ≤ topPower) :
    2 ^ double.depth ≤ double.units (power n) := by
  have hone : double.units (double.round 1 1) = 2 ^ double.depth := by decide +kernel
  have hpow : 1 * 2 ^ double.depth ≤ 10 ^ n * 2 ^ double.depth :=
    Nat.mul_le_mul_right _ (Nat.pow_pos (by decide))
  have hnearest := isNearest_round (f := double) (n := 10 ^ n) (by decide) (power_lt_infinity hn)
  rw [← hone]
  exact hnearest.le_units (by decide +kernel) (by omega)

theorem div_power_lt_infinity {code n : Nat} (h : code < double.infinity) (hn : n ≤ topPower) :
    double.div code (power n) < double.infinity := by
  have hlast : double.infinity = 0x7FEFFFFFFFFFFFFF + 1 := rfl
  exact div_lt_infinity (by decide) hlast (by decide) h (one_le_power hn)

theorem lower_lt_infinity (times : Nat) {code : Nat} (h : code < double.infinity) :
    lower code times < double.infinity := by
  induction times generalizing code with
  | zero => exact h
  | succ times ih =>
      rw [lower]
      split
      · decide
      · exact ih (div_power_lt_infinity h (Nat.le_refl _))

theorem lt_infinity_of_raise_eq_some {code n c : Nat} (h : raise code n = some c) :
    c < double.infinity := by
  simp only [raise] at h
  split at h
  · split at h
    · obtain rfl : 0 = c := Option.some.inj h
      decide
    · cases h
  · split at h
    · rename_i hfinite
      exact Option.some.inj h ▸ hfinite
    · cases h

theorem lt_infinity_of_scale_eq_some {code c : Nat} {exponent : Int}
    (hcode : code < double.infinity) (h : scale code exponent = some c) : c < double.infinity := by
  simp only [scale] at h
  split at h
  · exact lt_infinity_of_raise_eq_some h
  · obtain rfl := Option.some.inj h
    apply div_power_lt_infinity (lower_lt_infinity _ hcode)
    have hdiv := Nat.div_add_mod' ((-exponent).toNat - 1) topPower
    have hmod := Nat.mod_lt ((-exponent).toNat - 1) (show 0 < topPower by decide)
    omega

theorem round_word_lt_infinity {n : Nat} (h : n < UInt64.size) :
    double.round n 1 < double.infinity := by
  have hbinade : (64 + double.depth - double.precision + 2) * double.binade < double.infinity := by
    decide
  exact Nat.lt_of_le_of_lt (round_natural_le (by decide) (by decide) h) hbinade

theorem lt_infinity_of_scaled_eq_some {d : Decimal} {c : Nat} (hdigits : d.digits < UInt64.size)
    (h : d.scaled = some c) : c < double.infinity :=
  lt_infinity_of_scale_eq_some (round_word_lt_infinity hdigits) h

/-! ## Exact operands -/

theorem units_digits {n : Nat} (h : n ≤ 2 ^ 53) :
    double.units (double.round n 1) = n * 2 ^ double.depth := by
  have hlt : 2 ^ 53 * 2 ^ (0 + double.depth) < double.units double.infinity := by decide +kernel
  have hscaled : n * 2 ^ (0 + double.depth) ≤ 2 ^ 53 * 2 ^ (0 + double.depth) :=
    Nat.mul_le_mul_right _ h
  have hbinade : 2 * double.binade = 2 ^ 53 := by decide
  have hround := units_round (f := double) (m := n) (e := 0) (by decide) (by omega) (by omega)
  simpa using hround

/-- `10 ^ 22` is the last power of ten that binary64 has. -/
theorem units_power {n : Nat} (h : n ≤ 22) :
    double.units (power n) = 10 ^ n * 2 ^ double.depth := by
  have hfive : 5 ^ n ≤ 5 ^ 22 := Nat.pow_le_pow_right (by decide) h
  have hbinade : 5 ^ 22 ≤ 2 * double.binade := by decide
  have htwo : 2 ^ (n + double.depth) ≤ 2 ^ (22 + double.depth) :=
    Nat.pow_le_pow_right (by decide) (by omega)
  have hlt : 5 ^ 22 * 2 ^ (22 + double.depth) < double.units double.infinity := by decide +kernel
  have hten : 10 ^ n = 5 ^ n * 2 ^ n := Nat.mul_pow 5 2 n
  rw [power, Nat.pow_eq, hten]
  exact units_round (by decide) (Nat.le_trans hfive hbinade)
    (Nat.lt_of_le_of_lt (Nat.mul_le_mul hfive htwo) hlt)

theorem mul_power {digits n : Nat} (hdigits : digits ≤ 2 ^ 53) (hn : n ≤ 22) :
    double.mul (double.round digits 1) (power n) = double.round (digits * 10 ^ n) 1 := by
  have hpow : 0 < 2 ^ double.depth * 2 ^ double.depth :=
    Nat.mul_pos (Nat.two_pow_pos _) (Nat.two_pow_pos _)
  have hround := round_mul_right double hpow (digits * 10 ^ n) 1
  rw [Nat.one_mul] at hround
  rw [mul, Nat.pow_eq, units_digits hdigits, units_power hn, Nat.mul_mul_mul_comm, hround]

theorem div_power {digits n : Nat} (hdigits : digits ≤ 2 ^ 53) (hn : n ≤ 22) :
    double.div (double.round digits 1) (power n) = double.round digits (10 ^ n) := by
  rw [div, units_digits hdigits, units_power hn]
  exact round_mul_right double (Nat.two_pow_pos _) digits (10 ^ n)

theorem code_of_nonneg {digits : Nat} {exponent : Int} (hlow : 0 ≤ exponent)
    (hhigh : exponent ≤ 400) :
    (⟨digits, exponent⟩ : Decimal).code = double.round (digits * 10 ^ exponent.toNat) 1 := by
  simp only [code]
  split
  · rename_i hzero
    rw [hzero, Nat.zero_mul, round_zero (by decide) Nat.one_pos]
  · rw [if_neg (by omega), if_neg (by omega), Nat.pow_eq]

theorem code_of_neg {digits : Nat} {exponent : Int} (hlow : -400 ≤ exponent)
    (hhigh : exponent < 0) :
    (⟨digits, exponent⟩ : Decimal).code = double.round digits (10 ^ (-exponent).toNat) := by
  simp only [code]
  split
  · rename_i hzero
    rw [hzero, round_zero (by decide) (Nat.pow_pos (by decide))]
  · rw [if_neg (by omega), if_neg (by omega), if_neg (by omega), Nat.pow_eq]

theorem raise_digits {digits n : Nat} (hdigits : digits ≤ 2 ^ 53) (hn : n ≤ 22) :
    raise (double.round digits 1) n = some (double.round (digits * 10 ^ n) 1) := by
  have hsmall : digits * 10 ^ n < 2 ^ 127 :=
    calc
      digits * 10 ^ n ≤ 2 ^ 53 * 10 ^ 22 :=
        Nat.mul_le_mul hdigits (Nat.pow_le_pow_right (by decide) hn)
      _ < 2 ^ 127 := by decide
  have hbinade : (127 + double.depth - double.precision + 2) * double.binade < double.infinity := by
    decide
  have hfinite := Nat.lt_of_le_of_lt (round_natural_le (by decide) (by decide) hsmall) hbinade
  have htop : ¬ topPower < n := Nat.not_lt.mpr (Nat.le_trans hn (by decide))
  rw [raise, if_neg htop, mul_power hdigits hn]
  exact if_pos hfinite

theorem scale_digits {digits : Nat} {exponent : Int} (hdigits : digits ≤ 2 ^ 53)
    (hlow : -22 ≤ exponent) (hneg : exponent < 0) :
    scale (double.round digits 1) exponent =
      some (double.round digits (10 ^ (-exponent).toNat)) := by
  have htimes : ((-exponent).toNat - 1) / topPower = 0 := by
    apply Nat.div_eq_of_lt
    rw [topPower]
    omega
  rw [← div_power hdigits (by omega), scale, if_neg (by omega)]
  simp only [htimes, Nat.zero_mul, Nat.sub_zero, lower]

/-- Digits of 53 bits and a power of ten within the 22nd are scaled to the nearest code. -/
theorem scaled_eq_code {d : Decimal} (hdigits : d.digits ≤ 2 ^ 53) (hlow : -22 ≤ d.exponent)
    (hhigh : d.exponent ≤ 22) : d.scaled = some d.code := by
  obtain ⟨digits, exponent⟩ := d
  simp only at hdigits hlow hhigh
  by_cases hsign : 0 ≤ exponent
  · simp only [scaled, scale]
    rw [if_pos hsign, raise_digits hdigits (by omega), code_of_nonneg hsign (by omega)]
  · rw [scaled, scale_digits hdigits hlow (by omega), code_of_neg (by omega) (by omega)]

end Decimal

end OpGraph
