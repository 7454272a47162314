import OpGraph.Proofs.Constants
import OpGraph.Proofs.Json.Numbers
import OpGraph.Proofs.Narrowing

/-!
# Integers in binary32 constants

An integer becomes an element of a binary32 constant by way of binary64, so it is rounded to 53
bits and then to 24.  The result is one of the two binary32 values around the integer, and it is
the nearer one unless the first rounding ends in the middle between them.
-/

namespace OpGraph

namespace BinaryFormat

variable {n m code c : Nat}

/-! ## Natural numbers -/

theorem exists_units_round (f : BinaryFormat) (hp : 0 < f.precision)
    (h : f.round n 1 < f.infinity) : ∃ m, f.units (f.round n 1) = m * 2 ^ f.depth := by
  have hplace : f.round n 1 = f.place n 1 := by
    rw [round_eq_min] at h ⊢
    omega
  obtain ⟨s, k, hcode, hnearest, hhigh, hlow⟩ := f.exists_place_eq n 1 hp Nat.one_pos
  rw [hplace, hcode, units_mul_add (hlow.imp_right And.left) hhigh]
  rw [Nat.one_mul] at hnearest
  by_cases hs : s ≤ f.depth
  · -- The step divides one, so that nothing is lost.
    have hdvd : 2 ^ s ∣ n * 2 ^ f.depth := Nat.dvd_mul_left_of_dvd (Nat.pow_dvd_pow 2 hs) n
    rw [nearest_of_dvd (Nat.two_pow_pos s) hdvd] at hnearest
    exact ⟨n, by rw [← hnearest, Nat.div_mul_cancel hdvd]⟩
  · obtain ⟨t, rfl⟩ := Nat.exists_eq_add_of_lt (Nat.not_le.mp hs)
    exact ⟨k * 2 ^ (t + 1), by rw [Nat.mul_assoc, ← Nat.pow_add]; congr 2; omega⟩

/-- A power of two within the range is not passed. -/
theorem IsNearest.le_of_le_two_pow (h : double.IsNearest n code)
    (hm : double.units code = m * 2 ^ double.depth) {e w : Nat} (hw : 2 ^ e = w)
    (he : e + 1 + double.depth ≤ 2098) (hn : n ≤ w) : m ≤ w := by
  have hlt : w < 2 ^ (e + 1) := by
    rw [← hw, Nat.pow_succ]
    have hpos := Nat.two_pow_pos e
    omega
  have hscaled : 1 * 2 ^ (e + double.depth) = w * 2 ^ double.depth := by
    rw [Nat.one_mul, Nat.pow_add, hw]
  obtain ⟨d, hd, hunits⟩ := exists_double_eq (by decide) hscaled (mul_two_pow_lt hlt he)
  exact (h.le_of_scaled (Nat.two_pow_pos _) rfl hm hd hunits).1 hn

/-- The middle of two neighbouring values takes one bit more than they do. -/
theorem exists_eq_middle (f : BinaryFormat) (code extra : Nat) :
    ∃ m e, m ≤ 4 * f.binade ∧ m * 2 ^ e = (f.units code + f.units (code + 1)) * 2 ^ extra := by
  obtain ⟨s, k, rfl, hlow, hhigh⟩ := f.exists_eq_mul_add code
  have hnext : f.units (s * f.binade + k + 1) = (k + 1) * 2 ^ s :=
    units_mul_add (hlow.imp_right Nat.le_succ_of_le) hhigh
  refine ⟨2 * k + 1, s + extra, by omega, ?_⟩
  rw [hnext, units_mul_add hlow hhigh.le, Nat.pow_add]
  ring

end BinaryFormat

open BinaryFormat

/-! ## Rounding twice -/

/-- A number goes to 53 bits first, and what that gives goes to a binary32 code. -/
structure TwiceRounded (n m code : Nat) : Prop where
  first : ∃ d, double.IsNearest n d ∧ double.units d = m * 2 ^ double.depth
  second : single.IsNearest m code

/-- The middle between two neighbouring binary32 values is `m`, and the even one of them is not on
the side of `n`. -/
def TieAgainst (n m : Nat) : Prop :=
  ∃ c, c + 1 < single.infinity ∧
    single.units c + single.units (c + 1) = 2 * (m * 2 ^ single.depth) ∧
      (c % 2 = 0 ∧ m < n ∨ c % 2 = 1 ∧ n < m)

namespace TwiceRounded

-- The exponent between the two formats is kept a variable: powers of that size are not for
-- working out.
variable {n m code c v e : Nat}

theorem mul_two_pow_add (n a b : Nat) : n * 2 ^ (a + 1 + b) = 2 * (n * 2 ^ a) * 2 ^ b := by
  rw [Nat.pow_add, Nat.pow_succ]
  ring

/-- The first rounding does not pass a binary64 value, given in half steps of binary32. -/
theorem le_of_double (h : TwiceRounded n m code) (he : double.depth = single.depth + 1 + e)
    {d : Nat} (hd : d < double.infinity) (hv : double.units d = v * 2 ^ e) :
    (2 * (n * 2 ^ single.depth) ≤ v → 2 * (m * 2 ^ single.depth) ≤ v) ∧
      (v ≤ 2 * (n * 2 ^ single.depth) → v ≤ 2 * (m * 2 ^ single.depth)) := by
  obtain ⟨d', hnearest, hm⟩ := h.first
  have hn : n * 2 ^ double.depth = 2 * (n * 2 ^ single.depth) * 2 ^ e := by
    rw [he, mul_two_pow_add]
  rw [he, mul_two_pow_add] at hm
  exact hnearest.le_of_scaled (Nat.two_pow_pos e) hn hm hd hv

/-- The middle of two neighbouring binary32 values is a binary64 value. -/
theorem exists_middle (he : e = 924) (h : c + 1 < single.infinity) :
    ∃ d < double.infinity,
      double.units d = (single.units c + single.units (c + 1)) * 2 ^ e := by
  have hlt := single.units_strictMono h
  have hstep := single.units_strictMono (Nat.lt_add_one c)
  rw [units_infinity_single] at hlt
  obtain ⟨k, s, hbits, hmiddle⟩ := single.exists_eq_middle c e
  have hsum : single.units c + single.units (c + 1) < 2 ^ 278 := by omega
  exact exists_double_eq (Nat.le_trans hbits (by decide)) hmiddle
    (mul_two_pow_lt hsum (by omega))

theorem exists_doubled (he : 925 = e + 1) (h : c < single.infinity) :
    ∃ d < double.infinity, double.units d = 2 * single.units c * 2 ^ e := by
  obtain ⟨d, hd, hunits⟩ := exists_widened h
  rw [he, Nat.pow_succ] at hunits
  exact ⟨d, hd, by rw [hunits]; ring⟩

/-- No binary32 value lies strictly between the number and its code. -/
theorem units_le_and_le_units (h : TwiceRounded n m code) (hc : c < single.infinity) :
    (single.units c ≤ n * 2 ^ single.depth → single.units c ≤ single.units code) ∧
      (n * 2 ^ single.depth ≤ single.units c → single.units code ≤ single.units c) := by
  obtain ⟨d, hd, hunits⟩ := exists_doubled rfl hc
  obtain ⟨hupper, hlower⟩ := h.le_of_double rfl hd hunits
  constructor
  · intro hle
    exact h.second.le_units hc (by omega)
  · intro hle
    exact h.second.units_le hc (by omega)

/-- A tie is left at the even one of the two values. -/
theorem eq_of_tie (h : single.IsNearest m code)
    (htie : single.units c + single.units (c + 1) = 2 * (m * 2 ^ single.depth))
    (hc : c + 1 < single.infinity) : code = c ∧ c % 2 = 0 ∨ code = c + 1 ∧ c % 2 = 1 := by
  obtain ⟨hfinite, hlower, hupper⟩ := isNearest_iff.mp h
  have hmono := single.units_strictMono
  have hstep := hmono (Nat.lt_add_one c)
  rcases Nat.lt_trichotomy code c with hlt | rfl | hgt
  · have hle := hmono.monotone hlt
    have hbelow := hmono hlt
    have hmiddle := hupper (Nat.lt_of_le_of_lt hlt (Nat.lt_of_succ_lt hc))
    simp only [Nat.succ_eq_add_one] at hle
    omega
  · have hmiddle := hupper hc
    omega
  · obtain ⟨d, rfl⟩ := Nat.exists_eq_add_of_lt hgt
    have hmiddle := hlower _ rfl
    rcases Nat.eq_zero_or_pos d with rfl | hpos
    · rw [Nat.add_zero] at hmiddle
      omega
    · have hle := hmono.monotone (show c + 1 ≤ c + d by omega)
      have habove := hmono (Nat.lt_add_one (c + d))
      omega

theorem scaled_lt_iff : n * 2 ^ single.depth < m * 2 ^ single.depth ↔ n < m :=
  Nat.mul_lt_mul_right (Nat.two_pow_pos _)

/-- The code is the one that a single rounding gives, unless the first rounding ends at a tie and
the second leaves it away from the number. -/
theorem isNearest_iff_not_tieAgainst (h : TwiceRounded n m code) :
    single.IsNearest n code ↔ ¬ TieAgainst n m := by
  obtain ⟨hfinite, hlower, hupper⟩ := isNearest_iff.mp h.second
  constructor
  · rintro hnearest ⟨c, hc, htie, hside⟩
    obtain ⟨_, hlower', hupper'⟩ := isNearest_iff.mp hnearest
    rcases eq_of_tie h.second htie hc with ⟨rfl, heven⟩ | ⟨rfl, hodd⟩
    · have hmiddle := hupper' hc
      have hlt : m < n := by omega
      rw [← scaled_lt_iff] at hlt
      omega
    · have hmiddle := hlower' c rfl
      have hlt : n < m := by omega
      rw [← scaled_lt_iff] at hlt
      omega
  · intro hagainst
    refine isNearest_iff.mpr ⟨hfinite, ?_, fun hnext => ?_⟩
    -- Were the number beyond a middle, the first rounding could at most have brought it there.
    · rintro c rfl
      by_contra hover
      obtain ⟨d, hd, hunits⟩ := exists_middle rfl hfinite
      have hkept := (h.le_of_double rfl hd hunits).1 (by omega)
      have hmiddle := hlower c rfl
      have hlt : n < m := by
        rw [← scaled_lt_iff]
        omega
      exact hagainst ⟨c, hfinite, by omega, .inr ⟨by omega, hlt⟩⟩
    · by_contra hover
      obtain ⟨d, hd, hunits⟩ := exists_middle rfl hnext
      have hkept := (h.le_of_double rfl hd hunits).2 (by omega)
      have hmiddle := hupper hnext
      have hlt : m < n := by
        rw [← scaled_lt_iff]
        omega
      exact hagainst ⟨code, hnext, by omega, .inl ⟨by omega, hlt⟩⟩

/-- Nothing is lost by the first rounding in numbers of 53 bits. -/
theorem eq_of_le (h : TwiceRounded n m code) (hn : n ≤ 2 ^ 53) : m = n := by
  have hlt : n < 2 ^ 54 := by omega
  obtain ⟨d, hd, hunits⟩ := exists_double_eq hn rfl
    (mul_two_pow_lt hlt (show 54 + double.depth ≤ 2098 by decide))
  obtain ⟨d', hnearest, hm⟩ := h.first
  obtain ⟨hupper, hlower⟩ := hnearest.le_of_scaled (Nat.two_pow_pos _) rfl hm hd hunits
  exact Nat.le_antisymm (hupper (Nat.le_refl n)) (hlower (Nat.le_refl n))

end TwiceRounded

/-! ## Integers of a word -/

theorem Binary64.ofInt_code_negative (n : Int) :
    (ofInt n).code = double.round n.natAbs 1 ∧ (ofInt n).negative = decide (n < 0) := by
  have hlt : double.round n.natAbs 1 < 0x8000000000000000 :=
    Nat.lt_of_le_of_lt (Nat.min_le_left _ _) (by decide)
  exact ⟨ofCode_code hlt, ofCode_negative hlt⟩

/-- An integer keeps its sign in binary32 and is rounded twice. -/
theorem Binary64.exists_twiceRounded_ofInt {n : Int} (h : n.natAbs < UInt64.size) :
    (ofInt n).narrow.negative = decide (n < 0) ∧
      ∃ m, TwiceRounded n.natAbs m (ofInt n).narrow.code := by
  obtain ⟨hcode, hnegative⟩ := ofInt_code_negative n
  obtain ⟨hnarrow, hsign⟩ := (ofInt n).narrow_code_negative
  have hfinite : double.round n.natAbs 1 < double.infinity := by
    rw [← hcode]
    exact of_decide_eq_true (finite_ofInt h)
  have hnearest := isNearest_round (by decide) hfinite
  obtain ⟨m, hm⟩ := exists_units_round double (by decide) hfinite
  have hwide : m ≤ UInt64.size := hnearest.le_of_le_two_pow hm (e := 64) rfl (by decide) h.le
  have hsingle : (ofInt n).narrow.code = single.round m 1 := by
    have hround := round_mul_right single (Nat.two_pow_pos double.depth) m 1
    rw [Nat.one_mul] at hround
    rw [hnarrow, hcode, convert_of_lt hfinite, hm, hround]
  have hbits : m < 2 ^ 65 := Nat.lt_of_le_of_lt hwide (by decide)
  have hsecond : single.round m 1 < single.infinity :=
    Nat.lt_of_le_of_lt (round_natural_le (by decide) (by decide) hbits) (by decide)
  refine ⟨hsign.trans hnegative, m, ⟨_, hnearest, hm⟩, ?_⟩
  rw [hsingle]
  exact isNearest_round (by decide) hsecond

theorem natAbs_toInt_lt (n : Int64) : n.toInt.natAbs < UInt64.size := by
  have hlow := n.le_toInt
  have hhigh := n.toInt_lt
  have hsize : UInt64.size = 2 ^ 64 := rfl
  omega

theorem Binary64.finite_narrow_ofInt (n : Int64) : (ofInt n.toInt).narrow.widen.finite := by
  obtain ⟨_, m, htwice⟩ := exists_twiceRounded_ofInt (natAbs_toInt_lt n)
  exact (Binary32.finite_widen_iff _).mpr htwice.second.finite

namespace Constant

/-- Every element of a binary32 constant comes from the scalar in its place alone. -/
theorem exists_payload_of_ofScalars?_eq_some {shape : List UInt64} {values : List Scalar}
    {c : Constant} (h : ofScalars? .f32 shape values = some c) :
    ∃ xs, c.payload = .f32 xs ∧ List.Forall₂ (fun s x => s.toBinary32 = some x) values xs := by
  obtain ⟨_, p, hp, rfl⟩ := ofScalars?_eq_some_iff.mp h
  obtain ⟨xs, hxs, rfl⟩ := Option.map_eq_some_iff.mp hp
  exact ⟨xs, rfl, mapM_eq_some_iff_forall₂.mp hxs⟩

/-- An integer in a binary32 constant is stored as it stands between its neighbours among the
binary32 values, after a rounding to 53 bits.  It is the nearest one of them unless that rounding
ends at a tie and the even neighbour is on the other side; and it always is where the integer itself
has 53 bits. -/
theorem int_element_twiceRounded (n : Int64) :
    ∃ x m, ofScalars? .f32 [] [.int n] = some ⟨.f32, [], .f32 [x]⟩ ∧
      (∀ shape values c, ofScalars? .f32 shape values = some c →
        ∃ xs, c.payload = .f32 xs ∧ ∀ i : Nat, values[i]? = some (.int n) → xs[i]? = some x) ∧
      x.negative = decide (n.toInt < 0) ∧ TwiceRounded n.toInt.natAbs m x.code ∧
      (∀ c < single.infinity,
        (single.units c ≤ n.toInt.natAbs * 2 ^ single.depth →
          single.units c ≤ single.units x.code) ∧
        (n.toInt.natAbs * 2 ^ single.depth ≤ single.units c →
          single.units x.code ≤ single.units c)) ∧
      (single.IsNearest n.toInt.natAbs x.code ↔ ¬ TieAgainst n.toInt.natAbs m) ∧
      (n.toInt.natAbs ≤ 2 ^ 53 → m = n.toInt.natAbs ∧ single.IsNearest n.toInt.natAbs x.code) := by
  obtain ⟨hnegative, m, htwice⟩ := Binary64.exists_twiceRounded_ofInt (natAbs_toInt_lt n)
  refine ⟨(Binary64.ofInt n.toInt).narrow, m, rfl, fun shape values c h => ?_, hnegative, htwice,
    fun c hc => htwice.units_le_and_le_units hc, htwice.isNearest_iff_not_tieAgainst, fun hn => ?_⟩
  · obtain ⟨xs, hxs, hvalues⟩ := exists_payload_of_ofScalars?_eq_some h
    refine ⟨xs, hxs, fun i hi => ?_⟩
    obtain ⟨hlength, hget⟩ := List.forall₂_iff_get.mp hvalues
    obtain ⟨hlt, hi⟩ := List.getElem?_eq_some_iff.mp hi
    have hlt' : i < xs.length := hlength ▸ hlt
    have helement := hget i hlt hlt'
    rw [List.get_eq_getElem, hi] at helement
    exact List.getElem?_eq_some_iff.mpr ⟨hlt', (Option.some.inj helement).symm⟩
  · obtain rfl := htwice.eq_of_le hn
    exact ⟨rfl, htwice.second⟩

/-- The integer `2 ^ 53 + 2 ^ 29 + 1` lies above the middle of two neighbours, and the first
rounding takes it there. -/
theorem not_isNearest_of_tie :
    ofScalars? .f32 [] [.int 9007199791611905] = some ⟨.f32, [], .f32 [⟨0x5A000000⟩]⟩ ∧
      ¬ single.IsNearest 9007199791611905 (Binary32.code ⟨0x5A000000⟩) ∧
      single.IsNearest 9007199791611905 (Binary32.code ⟨0x5A000001⟩) := by
  have hround : single.round 9007199791611905 1 = 0x5A000001 := by decide +kernel
  refine ⟨by decide +kernel, fun h => ?_, ?_⟩
  · exact absurd (h.near 0x5A000001 (by decide)) (by decide +kernel)
  · have hnearest := isNearest_round (f := single) (n := 9007199791611905) (by decide)
    rw [hround] at hnearest
    exact hnearest (by decide)

end Constant

end OpGraph
