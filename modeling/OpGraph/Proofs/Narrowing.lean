import OpGraph.Proofs.Grid

/-!
# Between the two formats

Every binary32 value is a binary64 value, so widening is exact and narrowing undoes it.  A finite
binary64 datum narrows to a finite one unless it reaches the middle between the largest binary32
value and the next power of two.
-/

namespace OpGraph

namespace BinaryFormat

variable {code : Nat}

/-! ## Binary32 values among those of binary64 -/

theorem units_infinity_single : single.units single.infinity = 2 ^ 277 := by decide +kernel

theorem units_infinity_double : double.units double.infinity = 2 ^ 2098 := by decide +kernel

theorem mul_two_pow_lt {v a b c : Nat} (hv : v < 2 ^ a) (h : a + b ≤ c) : v * 2 ^ b < 2 ^ c :=
  calc
    v * 2 ^ b < 2 ^ a * 2 ^ b := Nat.mul_lt_mul_of_pos_right hv (Nat.two_pow_pos b)
    _ = 2 ^ (a + b) := (Nat.pow_add 2 a b).symm
    _ ≤ 2 ^ c := Nat.pow_le_pow_right (by decide) h

/-- A number of at most 53 bits is a binary64 value at any scale within the range. -/
theorem exists_double_eq {m e v : Nat} (hm : m ≤ 2 ^ 53) (hv : m * 2 ^ e = v) (hlt : v < 2 ^ 2098) :
    ∃ d < double.infinity, double.units d = v := by
  obtain ⟨d, hd⟩ := exists_units_eq (f := double) (show m ≤ 2 * double.binade from hm) e
  rw [hv] at hd
  refine ⟨d, ?_, hd⟩
  rwa [← double.units_strictMono.lt_iff_lt, units_infinity_double, hd]

theorem exists_eq_units_mul (f : BinaryFormat) (code extra : Nat) :
    ∃ m e, m ≤ 2 * f.binade ∧ m * 2 ^ e = f.units code * 2 ^ extra := by
  obtain ⟨s, k, rfl, hlow, hhigh⟩ := f.exists_eq_mul_add code
  refine ⟨k, s + extra, hhigh.le, ?_⟩
  rw [units_mul_add hlow hhigh.le, Nat.mul_assoc, Nat.pow_add]

theorem exists_widened (h : code < single.infinity) :
    ∃ d < double.infinity, double.units d = single.units code * 2 ^ 925 := by
  have hlt := single.units_strictMono h
  rw [units_infinity_single] at hlt
  obtain ⟨m, e, hm, hscale⟩ := single.exists_eq_units_mul code 925
  exact exists_double_eq (Nat.le_trans hm (by decide)) hscale (mul_two_pow_lt hlt (by decide))

/-! ## Converting there and back -/

theorem round_of_units_eq {f g : BinaryFormat} {c d extra : Nat} (hp : 0 < g.precision)
    (hd : d < g.infinity) (hdepth : f.depth + extra = g.depth)
    (h : g.units d = f.units c * 2 ^ extra) : g.round (f.units c) (2 ^ f.depth) = d := by
  have hround := round_units hp hd Nat.one_pos
  rw [Nat.mul_one, Nat.mul_one, ← hdepth, Nat.pow_add, h,
    round_mul_right g (Nat.two_pow_pos extra)] at hround
  exact hround

theorem round_of_eq_units {f g : BinaryFormat} {c d extra : Nat} (hp : 0 < f.precision)
    (hc : c < f.infinity) (hdepth : f.depth + extra = g.depth)
    (h : g.units d = f.units c * 2 ^ extra) : f.round (g.units d) (2 ^ g.depth) = c := by
  rw [h, ← hdepth, Nat.pow_add]
  exact round_units hp hc (Nat.two_pow_pos extra)

theorem convert_of_lt {f : BinaryFormat} (h : code < f.infinity) (g : BinaryFormat) :
    f.convert g code = g.round (f.units code) (2 ^ f.depth) := if_pos h

theorem convert_infinity (f g : BinaryFormat) : f.convert g f.infinity = g.infinity := by
  rw [convert, if_neg (Nat.lt_irrefl _), if_pos rfl]

theorem convert_payload {p : Nat} (hp : 0 < p) (f g : BinaryFormat) :
    f.convert g (f.infinity + p) =
      g.infinity + (p * g.binade / f.binade ||| g.binade / 2) := by
  rw [convert, if_neg (by omega), if_neg (by omega), Nat.add_sub_cancel_left]

theorem convert_double_convert_single (h : code < single.infinity) :
    single.convert double code < double.infinity ∧
      double.convert single (single.convert double code) = code := by
  obtain ⟨d, hd, hunits⟩ := exists_widened h
  have hwide : single.convert double code = d := by
    rw [convert_of_lt h]
    exact round_of_units_eq (by decide) hd (by decide) hunits
  rw [hwide, convert_of_lt hd]
  exact ⟨hd, round_of_eq_units (by decide) h (by decide) hunits⟩

/-- What narrowing makes of a payload that is no number has the quiet bit set, and then no other
bit is lost on the way there and back. -/
theorem quiet_payload (p : Nat) :
    ((p ||| 2 ^ 22) * 2 ^ 52 / 2 ^ 23 ||| 2 ^ 51) * 2 ^ 23 / 2 ^ 52 ||| 2 ^ 22 = p ||| 2 ^ 22 := by
  have hquiet : p ||| 2 ^ 22 ||| 2 ^ 22 = p ||| 2 ^ 22 := by rw [Nat.or_assoc, Nat.or_self]
  generalize p ||| 2 ^ 22 = q at *
  have hwide : q * 2 ^ 52 / 2 ^ 23 ||| 2 ^ 51 = q * 2 ^ 29 := by
    calc
      q * 2 ^ 52 / 2 ^ 23 ||| 2 ^ 51 = q <<< 29 ||| (2 ^ 22) <<< 29 := by
        rw [Nat.shiftLeft_eq, Nat.shiftLeft_eq]
        congr 1
        omega
      _ = q * 2 ^ 29 := by rw [← Nat.shiftLeft_or_distrib, hquiet, Nat.shiftLeft_eq]
  rw [hwide, Nat.mul_assoc, ← Nat.pow_add, Nat.mul_div_cancel _ (Nat.two_pow_pos 52), hquiet]

/-- Codes stay below those with a sign. -/
theorem convert_lt {f : BinaryFormat} (h : code < f.infinity + f.binade) (g : BinaryFormat) :
    f.convert g code < g.infinity + g.binade := by
  have hpos := g.binade_pos
  rcases Nat.lt_trichotomy code f.infinity with hlt | rfl | hgt
  · rw [convert_of_lt hlt, round_eq_min]
    omega
  · rw [convert_infinity]
    omega
  · obtain ⟨p, rfl⟩ := Nat.exists_eq_add_of_le hgt.le
    have hpayload : p * g.binade / f.binade < g.binade :=
      Nat.div_lt_of_lt_mul (Nat.mul_lt_mul_of_pos_right (by omega) hpos)
    have hquiet : g.binade / 2 < g.binade := Nat.div_lt_self hpos (by decide)
    rw [convert_payload (by omega)]
    exact Nat.add_lt_add_left (Nat.or_lt_two_pow hpayload hquiet) g.infinity

/-- What is narrowed stays as it is when it is widened and narrowed again. -/
theorem convert_convert_convert (code : Nat) :
    double.convert single (single.convert double (double.convert single code)) =
      double.convert single code := by
  by_cases hlt : double.convert single code < single.infinity
  · exact (convert_double_convert_single hlt).2
  · rcases Nat.lt_trichotomy code double.infinity with hcode | rfl | hcode
    · have hover : double.convert single code = single.infinity := by
        rw [convert_of_lt hcode, round_eq_min] at hlt ⊢
        omega
      rw [hover, convert_infinity, convert_infinity]
    · rw [convert_infinity, convert_infinity, convert_infinity]
    · obtain ⟨p, rfl⟩ := Nat.exists_eq_add_of_le hcode.le
      have hnarrow {p : Nat} (hp : 0 < p) : double.convert single (double.infinity + p) =
          single.infinity + (p * 2 ^ 23 / 2 ^ 52 ||| 2 ^ 22) := convert_payload hp double single
      have hwide {p : Nat} (hp : 0 < p) : single.convert double (single.infinity + p) =
          double.infinity + (p * 2 ^ 52 / 2 ^ 23 ||| 2 ^ 51) := convert_payload hp single double
      have hpos {a b : Nat} (hb : 0 < b) : 0 < a ||| b := Nat.lt_of_lt_of_le hb Nat.right_le_or
      rw [hnarrow (by omega), hwide (hpos (by decide)), hnarrow (hpos (by decide)), quiet_payload]

end BinaryFormat

/-! ## Data -/

theorem Binary64.code_lt (x : Binary64) :
    x.code < BinaryFormat.double.infinity + BinaryFormat.double.binade :=
  Nat.mod_lt _ (by decide)

theorem Binary32.code_lt (x : Binary32) :
    x.code < BinaryFormat.single.infinity + BinaryFormat.single.binade :=
  Nat.mod_lt _ (by decide)

theorem Binary32.ext_code {x y : Binary32} (hcode : x.code = y.code)
    (hnegative : x.negative = y.negative) : x = y := by
  obtain ⟨a⟩ := x
  obtain ⟨b⟩ := y
  have ha := a.toNat_lt
  have hb := b.toNat_lt
  simp only [code, negative, decide_eq_decide] at hcode hnegative
  rw [mk.injEq, ← UInt32.toNat_inj]
  omega

theorem Binary64.narrow_code_negative (x : Binary64) :
    x.narrow.code = BinaryFormat.double.convert .single x.code ∧
      x.narrow.negative = x.negative := by
  have hlt : BinaryFormat.double.convert .single x.code < 0x80000000 :=
    BinaryFormat.convert_lt x.code_lt .single
  simp only [narrow, Binary32.code, Binary32.negative, UInt32.toNat_ofNat']
  cases x.negative with
  | true =>
      simp only [if_true, decide_eq_true_eq]
      omega
  | false =>
      simp only [Bool.false_eq_true, if_false, decide_eq_false_iff_not]
      omega

theorem Binary32.widen_code_negative (x : Binary32) :
    x.widen.code = BinaryFormat.single.convert .double x.code ∧
      x.widen.negative = x.negative := by
  have hlt : BinaryFormat.single.convert .double x.code < 0x8000000000000000 :=
    BinaryFormat.convert_lt x.code_lt .double
  exact ⟨Binary64.ofCode_code hlt, Binary64.ofCode_negative hlt⟩

theorem Binary64.narrow_widen_narrow (x : Binary64) : x.narrow.widen.narrow = x.narrow := by
  obtain ⟨hcode, hnegative⟩ := x.narrow_code_negative
  obtain ⟨hwideCode, hwideNegative⟩ := x.narrow.widen_code_negative
  obtain ⟨hagainCode, hagainNegative⟩ := x.narrow.widen.narrow_code_negative
  apply Binary32.ext_code
  · rw [hagainCode, hwideCode, hcode, BinaryFormat.convert_convert_convert]
  · rw [hagainNegative, hwideNegative]

/-! ## Finite results -/

theorem Binary32.finite_widen_iff (x : Binary32) :
    x.widen.finite ↔ x.code < BinaryFormat.single.infinity := by
  rw [Binary64.finite, decide_eq_true_eq, x.widen_code_negative.1]
  constructor
  · intro h
    by_contra hover
    obtain ⟨p, hp⟩ := Nat.exists_eq_add_of_le (Nat.not_lt.mp hover)
    rw [hp] at h
    rcases Nat.eq_zero_or_pos p with rfl | hpos
    · rw [Nat.add_zero, BinaryFormat.convert_infinity] at h
      exact Nat.lt_irrefl _ h
    · rw [BinaryFormat.convert_payload hpos] at h
      omega
  · intro h
    exact (BinaryFormat.convert_double_convert_single h).1

/-- The magnitude lies below the middle between the largest binary32 value and the power of two
that follows it. -/
def Binary64.InSingleRange (x : Binary64) : Prop :=
  BinaryFormat.double.units x.code < (2 ^ 128 - 2 ^ 103) * 2 ^ BinaryFormat.double.depth

theorem Binary64.finite_narrow_iff {x : Binary64} (h : x.finite) :
    x.narrow.widen.finite ↔ x.InSingleRange := by
  have hcode : x.code < BinaryFormat.double.infinity := of_decide_eq_true h
  have hlast : BinaryFormat.single.units 0x7F7FFFFF + BinaryFormat.single.units (0x7F7FFFFF + 1) =
      (2 ^ 128 - 2 ^ 103) * 2 ^ (BinaryFormat.single.depth + 1) := by decide +kernel
  rw [Binary32.finite_widen_iff, x.narrow_code_negative.1, BinaryFormat.convert_of_lt hcode,
    BinaryFormat.round_lt_infinity_iff (by decide) (Nat.two_pow_pos _) rfl (by decide), hlast,
    InSingleRange]
  generalize BinaryFormat.double.units x.code = units
  generalize BinaryFormat.double.depth = depth
  generalize BinaryFormat.single.depth = depth'
  have hunits : 2 * (units * 2 ^ depth') = units * 2 ^ (depth' + 1) := by
    rw [Nat.pow_succ', Nat.mul_left_comm]
  rw [hunits, Nat.mul_right_comm, Nat.mul_lt_mul_right (Nat.two_pow_pos _)]

end OpGraph
