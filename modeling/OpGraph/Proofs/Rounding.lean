import Mathlib.Algebra.Group.Nat.Defs
import OpGraph.Number.Binary

/-!
# Rounding

Rounding a quotient does not depend on how it is written, gives the value of a code back to that
code, and stays finite for the integers of a word.
-/

namespace OpGraph

theorem nearest_mul_right {k : Nat} (hk : 0 < k) (num den : Nat) :
    nearest (num * k) (den * k) = nearest num den := by
  have hlt : 2 * (num % den * k) < den * k ↔ 2 * (num % den) < den := by
    rw [← Nat.mul_assoc, Nat.mul_lt_mul_right hk]
  have heq : 2 * (num % den * k) = den * k ↔ 2 * (num % den) = den := by
    rw [← Nat.mul_assoc, Nat.mul_right_cancel_iff hk]
  simp only [nearest, Nat.mul_div_mul_right _ _ hk, Nat.mul_mod_mul_right, hlt, heq]

theorem nearest_le (num den : Nat) : nearest num den ≤ num / den + 1 := by
  simp only [nearest]
  split <;> omega

namespace BinaryFormat

variable (f : BinaryFormat)

theorem binade_pos : 0 < f.binade := Nat.pow_pos (by decide)

theorem round_mul_right {k : Nat} (hk : 0 < k) (num den : Nat) :
    f.round (num * k) (den * k) = f.round num den := by
  have hscaled : num * k * 2 ^ f.depth = num * 2 ^ f.depth * k := Nat.mul_right_comm _ _ _
  have hden (m : Nat) : den * k * m = den * m * k := Nat.mul_right_comm _ _ _
  simp only [round, Nat.pow_eq, hscaled, Nat.mul_div_mul_right _ _ hk, hden, nearest_mul_right hk]

/-! ## Values of codes -/

variable {f} {code : Nat}

theorem units_of_lt (h : code < f.binade) : f.units code = code := if_pos h

theorem units_of_le (h : f.binade ≤ code) :
    f.units code = (f.binade + code % f.binade) * 2 ^ (code / f.binade - 1) :=
  if_neg (Nat.not_lt.mpr h)

theorem units_eq_zero_iff : f.units code = 0 ↔ code = 0 := by
  by_cases h : code < f.binade
  · rw [units_of_lt h]
  · have hle : f.binade ≤ code := Nat.not_lt.mp h
    have hpos := f.binade_pos
    have hunits : f.units code ≠ 0 := by
      rw [units_of_le hle]
      exact Nat.mul_ne_zero (by omega) (Nat.ne_of_gt (Nat.two_pow_pos _))
    have hcode : code ≠ 0 := by omega
    simp [hunits, hcode]

/-- A value has as many bits beyond the precision as its code has binades below its own. -/
theorem log2_units (hp : 0 < f.precision) :
    (f.units code).log2 + 1 - f.precision = code / f.binade - 1 := by
  have hbinade : f.binade = 2 ^ (f.precision - 1) := rfl
  by_cases h : code < f.binade
  · have hlog : code.log2 < f.precision := by
      by_cases hzero : code = 0
      · simpa [hzero] using hp
      · have := (Nat.log2_lt hzero).mpr (hbinade ▸ h)
        omega
    rw [units_of_lt h, Nat.div_eq_of_lt h]
    omega
  · have hle : f.binade ≤ code := Nat.not_lt.mp h
    have hrest := Nat.mod_lt code f.binade_pos
    have hquotient : 0 < code / f.binade := Nat.div_pos hle f.binade_pos
    have hne : f.units code ≠ 0 := by
      rw [Ne, units_eq_zero_iff]
      omega
    have hlow : 2 ^ (f.precision - 1 + (code / f.binade - 1)) ≤ f.units code := by
      rw [units_of_le hle, Nat.pow_add, ← hbinade]
      exact Nat.mul_le_mul_right _ (Nat.le_add_right _ _)
    have hhigh : f.units code < 2 ^ (f.precision - 1 + (code / f.binade - 1) + 1) := by
      rw [units_of_le hle, Nat.pow_succ', Nat.pow_add, ← hbinade, ← Nat.mul_assoc]
      exact Nat.mul_lt_mul_of_pos_right (by omega) (Nat.two_pow_pos _)
    have hlog := (Nat.log2_eq_iff hne).mpr ⟨hlow, hhigh⟩
    omega

theorem nearest_units (code : Nat) :
    (code / f.binade - 1) * f.binade + nearest (f.units code) (2 ^ (code / f.binade - 1)) =
      code := by
  by_cases h : code < f.binade
  · rw [units_of_lt h, Nat.div_eq_of_lt h, Nat.zero_sub, Nat.zero_mul, Nat.pow_zero, nearest_one,
      Nat.zero_add]
  · have hle : f.binade ≤ code := Nat.not_lt.mp h
    have hquotient : 0 < code / f.binade := Nat.div_pos hle f.binade_pos
    obtain ⟨q, hq⟩ : ∃ q, code / f.binade = q + 1 := ⟨code / f.binade - 1, by omega⟩
    have hcode := Nat.div_add_mod' code f.binade
    rw [hq, Nat.succ_mul] at hcode
    rw [units_of_le hle, hq, Nat.add_sub_cancel,
      nearest_of_dvd (Nat.two_pow_pos q) (Nat.dvd_mul_left _ _),
      Nat.mul_div_cancel _ (Nat.two_pow_pos q)]
    omega

/-- A value is rounded to its own code, however the quotient is written. -/
theorem round_units (hp : 0 < f.precision) (hcode : code < f.infinity) {k : Nat} (hk : 0 < k) :
    f.round (f.units code * k) (2 ^ f.depth * k) = code := by
  have hpow : 0 < 2 ^ f.depth := Nat.two_pow_pos _
  rw [round_mul_right f hk]
  simp only [round, Nat.pow_eq, Nat.mul_div_cancel _ hpow, log2_units hp]
  rw [Nat.mul_comm (2 ^ f.depth), nearest_mul_right hpow, nearest_units]
  exact Nat.min_eq_right (Nat.le_of_lt hcode)

/-! ## Finite results -/

theorem two_mul_binade (hp : 0 < f.precision) : 2 * f.binade = 2 ^ f.precision := by
  rw [binade, Nat.pow_eq, ← Nat.pow_succ']
  congr 1
  omega

/-- The shift leaves as many bits as the format has, which rounding raises by one at most. -/
theorem nearest_shift_le (hp : 0 < f.precision) {scaled den shift : Nat}
    (hshift : (scaled / den).log2 + 1 - f.precision = shift) :
    nearest scaled (den * 2 ^ shift) ≤ 2 * f.binade := by
  have hquotient : scaled / den < 2 ^ shift * (2 * f.binade) := by
    have hpow : 2 ^ ((scaled / den).log2 + 1) ≤ 2 ^ (shift + f.precision) :=
      Nat.pow_le_pow_right (by decide) (by omega)
    rw [two_mul_binade hp, ← Nat.pow_add]
    exact Nat.lt_of_lt_of_le Nat.lt_log2_self hpow
  refine Nat.le_trans (nearest_le _ _) ?_
  rw [← Nat.div_div_eq_div_mul]
  exact Nat.div_lt_of_lt_mul hquotient

/-- A quotient below a power of two is rounded to a code of one of the binades up to it. -/
theorem round_le {num den bits : Nat} (hp : 0 < f.precision) (hbits : f.precision ≤ bits)
    (h : num * 2 ^ f.depth / den < 2 ^ bits) :
    f.round num den ≤ (bits - f.precision + 2) * f.binade := by
  generalize hscaled : num * 2 ^ f.depth = scaled at h
  generalize hshift : (scaled / den).log2 + 1 - f.precision = shift
  have hlog : (scaled / den).log2 + 1 ≤ bits := by
    by_cases hzero : scaled / den = 0
    · rw [hzero, Nat.log2_zero]
      omega
    · exact (Nat.log2_lt hzero).mpr h
  have hnearest := nearest_shift_le hp hshift
  have hbinades : shift * f.binade ≤ (bits - f.precision) * f.binade :=
    Nat.mul_le_mul_right _ (by omega)
  simp only [round, Nat.pow_eq, hscaled, hshift]
  refine Nat.le_trans (Nat.min_le_right _ _) ?_
  rw [Nat.add_mul]
  omega

theorem round_natural_le {n bits : Nat} (hp : 0 < f.precision)
    (hbits : f.precision ≤ bits + f.depth) (h : n < 2 ^ bits) :
    f.round n 1 ≤ (bits + f.depth - f.precision + 2) * f.binade := by
  apply round_le hp hbits
  rw [Nat.div_one, Nat.pow_add]
  exact Nat.mul_lt_mul_of_pos_right h (Nat.two_pow_pos _)

end BinaryFormat

end OpGraph
