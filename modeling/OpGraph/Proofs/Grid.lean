import Mathlib.Order.Monotone.Defs
import Mathlib.Tactic.Ring
import OpGraph.Proofs.Rounding

/-!
# The grid of a format

The values of a format grow with their codes, in steps that double from one binade to the next.
Rounding goes to the code around which the quotient lies, between the middles of the two steps that
meet there; a middle itself belongs to the even code.
-/

namespace OpGraph

theorem nearest_le_iff {num den k : Nat} (hden : 0 < den) :
    nearest num den ≤ k ↔
      2 * num < (2 * k + 1) * den ∨ 2 * num = (2 * k + 1) * den ∧ k % 2 = 0 := by
  have hnum := Nat.div_add_mod' num den
  have hrest := Nat.mod_lt num hden
  simp only [nearest]
  generalize num / den = low at *
  generalize num % den = rest at *
  subst hnum
  rcases Nat.lt_trichotomy k low with hk | rfl | hk
  · obtain ⟨t, rfl⟩ := Nat.exists_eq_add_of_lt hk
    have hmul : 2 * ((k + t + 1) * den + rest) = (2 * k + 1) * den + (2 * t + 1) * den + 2 * rest := by
      ring
    have hpos : 0 < (2 * t + 1) * den := Nat.mul_pos (by omega) hden
    split <;> omega
  · have hmul : 2 * (k * den + rest) = 2 * k * den + 2 * rest := by ring
    have hone : (2 * k + 1) * den = 2 * k * den + den := by ring
    split <;> omega
  · obtain ⟨t, rfl⟩ := Nat.exists_eq_add_of_lt hk
    have hmul : (2 * (low + t + 1) + 1) * den = 2 * (low * den) + (2 * t + 1) * den + 2 * den := by
      ring
    split <;> omega

theorem le_nearest (num den : Nat) : num / den ≤ nearest num den := by
  simp only [nearest]
  split <;> omega

namespace BinaryFormat

variable {f : BinaryFormat}

/-! ## Values grow with codes -/

theorem units_mul_add {s k : Nat} (hlow : s = 0 ∨ f.binade ≤ k) (hhigh : k ≤ 2 * f.binade) :
    f.units (s * f.binade + k) = k * 2 ^ s := by
  have hpos := f.binade_pos
  by_cases hk : k < f.binade
  · obtain rfl : s = 0 := hlow.resolve_right (Nat.not_le.mpr hk)
    rw [Nat.zero_mul, Nat.zero_add, units_of_lt hk, Nat.pow_zero, Nat.mul_one]
  · obtain ⟨t, rfl⟩ := Nat.exists_eq_add_of_le (Nat.not_lt.mp hk)
    have hcode : s * f.binade + (f.binade + t) = t + f.binade * (s + 1) := by ring
    rw [units_of_le (by omega), hcode, Nat.add_mul_mod_self_left, Nat.add_mul_div_left _ _ hpos]
    by_cases ht : t < f.binade
    · rw [Nat.mod_eq_of_lt ht, Nat.div_eq_of_lt ht, Nat.zero_add, Nat.add_sub_cancel]
    · obtain rfl : t = f.binade := by omega
      rw [Nat.mod_self, Nat.div_self hpos, Nat.add_sub_cancel_left]
      ring

theorem exists_eq_mul_add (f : BinaryFormat) (code : Nat) :
    ∃ s k, code = s * f.binade + k ∧ (s = 0 ∨ f.binade ≤ k) ∧ k < 2 * f.binade := by
  have hdiv := Nat.div_add_mod' code f.binade
  have hmod := Nat.mod_lt code f.binade_pos
  by_cases h : code < f.binade
  · exact ⟨0, code, by omega, .inl rfl, by omega⟩
  · obtain ⟨s, hs⟩ := Nat.exists_eq_add_of_le' (Nat.div_pos (Nat.not_lt.mp h) f.binade_pos)
    rw [hs, Nat.succ_mul] at hdiv
    exact ⟨s, f.binade + code % f.binade, by omega, .inr (by omega), by omega⟩

theorem units_strictMono (f : BinaryFormat) : StrictMono f.units := by
  refine strictMono_nat_of_lt_succ fun code => ?_
  obtain ⟨s, k, rfl, hlow, hhigh⟩ := f.exists_eq_mul_add code
  have hnext : f.units (s * f.binade + k + 1) = (k + 1) * 2 ^ s :=
    units_mul_add (hlow.imp_right Nat.le_succ_of_le) hhigh
  rw [units_mul_add hlow hhigh.le, hnext]
  exact Nat.mul_lt_mul_of_pos_right (Nat.lt_succ_self k) (Nat.two_pow_pos s)

/-- A format has every number of as many bits as its precision, at any scale. -/
theorem exists_units_eq {m : Nat} (hm : m ≤ 2 * f.binade) (e : Nat) :
    ∃ code, f.units code = m * 2 ^ e := by
  induction e generalizing m with
  | zero => exact ⟨0 * f.binade + m, units_mul_add (.inl rfl) hm⟩
  | succ e ih =>
      by_cases hlow : f.binade ≤ m
      · exact ⟨(e + 1) * f.binade + m, units_mul_add (.inr hlow) hm⟩
      · obtain ⟨code, hcode⟩ := ih (m := 2 * m) (by omega)
        exact ⟨code, by rw [hcode, Nat.pow_succ]; ring⟩

/-! ## Where rounding ends -/

/-- The code of a rounded quotient in the grid continued beyond its largest value. -/
def place (f : BinaryFormat) (num den : Nat) : Nat :=
  let scaled := num * 2 ^ f.depth
  let shift := (scaled / den).log2 + 1 - f.precision
  shift * f.binade + nearest scaled (den * 2 ^ shift)

theorem round_eq_min (f : BinaryFormat) (num den : Nat) :
    f.round num den = min f.infinity (f.place num den) := rfl

/-- The place of a quotient, with the steps that it is counted in. -/
theorem exists_place_eq (num den : Nat) (hp : 0 < f.precision) (hden : 0 < den) :
    ∃ s k, f.place num den = s * f.binade + k ∧ nearest (num * 2 ^ f.depth) (den * 2 ^ s) = k ∧
      k ≤ 2 * f.binade ∧
        (s = 0 ∨ f.binade ≤ k ∧ f.binade * (den * 2 ^ s) ≤ num * 2 ^ f.depth) := by
  generalize hscaled : num * 2 ^ f.depth = scaled
  generalize hshift : (scaled / den).log2 + 1 - f.precision = shift
  have hplace : f.place num den =
      shift * f.binade + nearest scaled (den * 2 ^ shift) := by
    simp only [place, hscaled, hshift]
  refine ⟨shift, _, hplace, rfl, nearest_shift_le hp hshift, ?_⟩
  by_cases hzero : shift = 0
  · exact .inl hzero
  · have hquotient : scaled / den ≠ 0 := by
      intro h
      rw [h, Nat.log2_zero] at hshift
      omega
    have hlog : 2 ^ (f.precision - 1 + shift) ≤ scaled / den :=
      (Nat.le_log2 hquotient).mp (by omega)
    have hlow : f.binade * (den * 2 ^ shift) ≤ scaled := by
      refine Nat.le_trans (Nat.le_of_eq ?_) (Nat.mul_le_of_le_div _ _ _ hlog)
      rw [Nat.pow_add, binade, Nat.pow_eq]
      ring
    have hden' : 0 < den * 2 ^ shift := Nat.mul_pos hden (Nat.two_pow_pos _)
    exact .inr ⟨Nat.le_trans ((Nat.le_div_iff_mul_le hden').mpr hlow) (le_nearest _ _), hlow⟩

theorem mul_binade_add_mod_two (hp : 1 < f.precision) (s k : Nat) :
    (s * f.binade + k) % 2 = k % 2 := by
  obtain ⟨p, hp⟩ : ∃ p, f.precision - 1 = p + 1 := ⟨f.precision - 2, by omega⟩
  rw [binade, Nat.pow_eq, hp, Nat.pow_succ, ← Nat.mul_assoc, Nat.mul_comm _ 2,
    Nat.mul_add_mod]

variable {num den code : Nat}

/-- A quotient does not lie beyond the middle of the step that begins at its place. -/
theorem le_middle_of_place_eq (hp : 1 < f.precision) (hden : 0 < den)
    (h : f.place num den = code) :
    2 * (num * 2 ^ f.depth) < (f.units code + f.units (code + 1)) * den ∨
      2 * (num * 2 ^ f.depth) = (f.units code + f.units (code + 1)) * den ∧ code % 2 = 0 := by
  obtain ⟨s, k, hplace, hnearest, hhigh, hlow⟩ := exists_place_eq num den (Nat.zero_lt_of_lt hp) hden
  have hpos : 0 < den * 2 ^ s := Nat.mul_pos hden (Nat.two_pow_pos s)
  have hmiddle := (nearest_le_iff hpos).mp (Nat.le_of_eq hnearest)
  have hlow : s = 0 ∨ f.binade ≤ k := hlow.imp_right And.left
  rw [← h, hplace, mul_binade_add_mod_two hp, units_mul_add hlow hhigh]
  by_cases hk : k < 2 * f.binade
  · have hnext : f.units (s * f.binade + k + 1) = (k + 1) * 2 ^ s :=
      units_mul_add (hlow.imp_right Nat.le_succ_of_le) hk
    have hsum : (k * 2 ^ s + (k + 1) * 2 ^ s) * den = (2 * k + 1) * (den * 2 ^ s) := by ring
    rwa [hnext, hsum]
  · -- The next step belongs to the next binade and is twice as long.
    obtain rfl : k = 2 * f.binade := by omega
    have hbinade := f.binade_pos
    have hcode : s * f.binade + 2 * f.binade + 1 = (s + 1) * f.binade + (f.binade + 1) := by ring
    have hnext : f.units (s * f.binade + 2 * f.binade + 1) = (f.binade + 1) * 2 ^ (s + 1) := by
      rw [hcode]
      exact units_mul_add (.inr (Nat.le_succ _)) (by omega)
    have hsum : (2 * f.binade * 2 ^ s + (f.binade + 1) * 2 ^ (s + 1)) * den =
        (2 * (2 * f.binade) + 1) * (den * 2 ^ s) + den * 2 ^ s := by ring
    rw [hnext, hsum]
    omega

/-- A quotient does not lie before the middle of the step that ends at its place. -/
theorem middle_le_of_place_eq (hp : 1 < f.precision) (hden : 0 < den)
    (h : f.place num den = code + 1) :
    (f.units code + f.units (code + 1)) * den < 2 * (num * 2 ^ f.depth) ∨
      (f.units code + f.units (code + 1)) * den = 2 * (num * 2 ^ f.depth) ∧
        (code + 1) % 2 = 0 := by
  obtain ⟨s, k, hplace, hnearest, hhigh, hlow⟩ := exists_place_eq num den (Nat.zero_lt_of_lt hp) hden
  have hpos : 0 < den * 2 ^ s := Nat.mul_pos hden (Nat.two_pow_pos s)
  have hbinade := f.binade_pos
  rw [h] at hplace
  by_cases hk : s = 0 ∨ f.binade < k
  · obtain ⟨j, rfl⟩ : ∃ j, k = j + 1 := by
      refine ⟨k - 1, ?_⟩
      rcases hk with rfl | hk
      · omega
      · omega
    obtain rfl : code = s * f.binade + j := by omega
    have hmiddle : ¬ nearest (num * 2 ^ f.depth) (den * 2 ^ s) ≤ j := by omega
    rw [nearest_le_iff hpos] at hmiddle
    have hsum : (j * 2 ^ s + (j + 1) * 2 ^ s) * den = (2 * j + 1) * (den * 2 ^ s) := by ring
    have hlow' : s = 0 ∨ f.binade ≤ j := hk.imp_right Nat.le_of_lt_succ
    rw [hplace, mul_binade_add_mod_two hp, units_mul_add hlow' (by omega),
      units_mul_add (hlow.imp_right And.left) hhigh, hsum]
    omega
  · -- The step belongs to the binade before and is half as long.
    obtain ⟨hs, hk⟩ := not_or.mp hk
    obtain ⟨hbelow, hscaled⟩ := hlow.resolve_left hs
    obtain rfl : k = f.binade := Nat.le_antisymm (Nat.not_lt.mp hk) hbelow
    obtain ⟨t, rfl⟩ := Nat.exists_eq_add_one_of_ne_zero hs
    obtain ⟨j, hj⟩ : ∃ j, 2 * f.binade = j + 1 := ⟨2 * f.binade - 1, by omega⟩
    obtain rfl : code = t * f.binade + j := by
      rw [Nat.succ_mul] at hplace
      omega
    have hsum : (j * 2 ^ t + f.binade * 2 ^ (t + 1)) * den + den * 2 ^ t =
        2 * (f.binade * (den * 2 ^ (t + 1))) := by
      calc
        _ = (j + 1 + 2 * f.binade) * (den * 2 ^ t) := by ring
        _ = _ := by rw [← hj]; ring
    have hstep : 0 < den * 2 ^ t := Nat.mul_pos hden (Nat.two_pow_pos t)
    rw [hplace, units_mul_add (.inr (by omega)) (by omega), units_mul_add (.inr hbelow) hhigh]
    omega

/-- A quotient is rounded to infinity from the middle of the last step on. -/
theorem round_lt_infinity_iff {last : Nat} (hp : 1 < f.precision) (hden : 0 < den)
    (hinfinity : f.infinity = last + 1) (hodd : last % 2 = 1) :
    f.round num den < f.infinity ↔
      2 * (num * 2 ^ f.depth) < (f.units last + f.units (last + 1)) * den := by
  have hround : f.round num den < f.infinity ↔ f.place num den ≤ last := by
    rw [round_eq_min]
    omega
  have hmiddle {c d : Nat} (h : c ≤ d) :
      (f.units c + f.units (c + 1)) * den ≤ (f.units d + f.units (d + 1)) * den :=
    Nat.mul_le_mul_right _ (Nat.add_le_add (f.units_strictMono.monotone h)
      (f.units_strictMono.monotone (Nat.succ_le_succ h)))
  rw [hround]
  constructor
  · intro hle
    rcases le_middle_of_place_eq hp hden rfl with hupper | ⟨hupper, heven⟩
    · exact Nat.lt_of_lt_of_le hupper (hmiddle hle)
    · have hlt : f.place num den < last := by omega
      have hsum : (f.units (f.place num den) + f.units (f.place num den + 1)) * den <
          (f.units last + f.units (last + 1)) * den :=
        Nat.mul_lt_mul_of_pos_right (Nat.add_lt_add (f.units_strictMono hlt)
          (f.units_strictMono (Nat.succ_lt_succ hlt))) hden
      exact Nat.lt_of_le_of_lt (Nat.le_of_eq hupper) hsum
  · intro hlt
    by_contra hover
    obtain ⟨c, hc⟩ := Nat.exists_eq_add_of_lt (Nat.not_le.mp hover)
    have hsum := hmiddle (Nat.le_add_right last c)
    have hlower := middle_le_of_place_eq hp hden hc
    omega

/-! ## The nearest value -/

/-- A finite code is that of the value nearest to a natural number; of two values that are equally
near it is the even one. -/
structure IsNearest (f : BinaryFormat) (n code : Nat) : Prop where
  finite : code < f.infinity
  near : ∀ c < f.infinity, ((f.units code : Int) - n * 2 ^ f.depth).natAbs ≤
    ((f.units c : Int) - n * 2 ^ f.depth).natAbs
  even : ∀ c < f.infinity, c ≠ code → ((f.units c : Int) - n * 2 ^ f.depth).natAbs =
    ((f.units code : Int) - n * 2 ^ f.depth).natAbs → code % 2 = 0

section Nearest

variable {n code c : Nat}

theorem cast_scaled (n depth : Nat) : ((n * 2 ^ depth : Nat) : Int) = n * 2 ^ depth := by
  push_cast
  rfl

/-- A code is nearest when the number lies between the middles of the steps that meet there. -/
theorem isNearest_iff :
    f.IsNearest n code ↔ code < f.infinity ∧
      (∀ c, code = c + 1 → f.units c + f.units code < 2 * (n * 2 ^ f.depth) ∨
        f.units c + f.units code = 2 * (n * 2 ^ f.depth) ∧ code % 2 = 0) ∧
      (code + 1 < f.infinity → 2 * (n * 2 ^ f.depth) < f.units code + f.units (code + 1) ∨
        2 * (n * 2 ^ f.depth) = f.units code + f.units (code + 1) ∧ code % 2 = 0) := by
  have hscaled := cast_scaled n f.depth
  have hmono := f.units_strictMono
  constructor
  · rintro ⟨hfinite, hnear, heven⟩
    rw [← hscaled] at hnear heven
    generalize n * 2 ^ f.depth = v at *
    refine ⟨hfinite, ?_, fun hnext => ?_⟩
    · rintro c rfl
      have hlt := hmono (Nat.lt_add_one c)
      have hle := hnear c (Nat.lt_of_succ_lt hfinite)
      have htie := heven c (Nat.lt_of_succ_lt hfinite) (Nat.ne_of_lt (Nat.lt_add_one c))
      omega
    · have hlt := hmono (Nat.lt_add_one code)
      have hle := hnear (code + 1) hnext
      have htie := heven (code + 1) hnext (Nat.succ_ne_self code)
      omega
  · rintro ⟨hfinite, hlower, hupper⟩
    -- Every other value lies behind one of the two neighbours.
    have hside {c : Nat} (hc : c < f.infinity) (hne : c ≠ code) :
        ((f.units code : Int) - n * 2 ^ f.depth).natAbs <
            ((f.units c : Int) - n * 2 ^ f.depth).natAbs ∨
          ((f.units code : Int) - n * 2 ^ f.depth).natAbs =
            ((f.units c : Int) - n * 2 ^ f.depth).natAbs ∧ code % 2 = 0 := by
      rw [← hscaled]
      generalize n * 2 ^ f.depth = v at *
      rcases Nat.lt_or_gt_of_ne hne with hlt | hgt
      · obtain ⟨d, rfl⟩ := Nat.exists_eq_add_of_lt hlt
        have hstep := hmono (Nat.lt_add_one (c + d))
        have hbehind := hmono.monotone (Nat.le_add_right c d)
        have hmiddle := hlower _ rfl
        omega
      · have hstep := hmono (Nat.lt_add_one code)
        have hbehind := hmono.monotone (Nat.succ_le_of_lt hgt)
        have hmiddle := hupper (Nat.lt_of_le_of_lt hgt hc)
        simp only [Nat.succ_eq_add_one] at hbehind
        omega
    refine ⟨hfinite, fun c hc => ?_, fun c hc hne heq => ?_⟩
    · by_cases hne : c = code
      · rw [hne]
      · rcases hside hc hne with hlt | ⟨heq, _⟩
        · exact hlt.le
        · exact heq.le
    · rcases hside hc hne with hlt | ⟨_, heven⟩
      · exact absurd heq (Nat.ne_of_gt hlt)
      · exact heven

/-- Rounding a natural number gives the code that is nearest to it. -/
theorem isNearest_round (hp : 1 < f.precision) (h : f.round n 1 < f.infinity) :
    f.IsNearest n (f.round n 1) := by
  have hplace : f.place n 1 = f.round n 1 := by
    rw [round_eq_min] at h ⊢
    omega
  rw [isNearest_iff]
  refine ⟨h, fun c hc => ?_, fun _ => ?_⟩
  · have hmiddle := middle_le_of_place_eq hp Nat.one_pos (hplace.trans hc)
    rw [hc]
    omega
  · have hmiddle := le_middle_of_place_eq hp Nat.one_pos hplace
    omega

theorem IsNearest.units_le (h : f.IsNearest n code) (hc : c < f.infinity)
    (hle : n * 2 ^ f.depth ≤ f.units c) : f.units code ≤ f.units c := by
  have hnear := h.near c hc
  rw [← cast_scaled] at hnear
  omega

theorem IsNearest.le_units (h : f.IsNearest n code) (hc : c < f.infinity)
    (hle : f.units c ≤ n * 2 ^ f.depth) : f.units c ≤ f.units code := by
  have hnear := h.near c hc
  rw [← cast_scaled] at hnear
  omega

/-- The nearest value does not lie beyond another value, in whatever steps they are counted. -/
theorem IsNearest.le_of_scaled {k a b v : Nat} (h : f.IsNearest n code) (hk : 0 < k)
    (hn : n * 2 ^ f.depth = a * k) (hcode : f.units code = b * k) (hc : c < f.infinity)
    (hv : f.units c = v * k) : (a ≤ v → b ≤ v) ∧ (v ≤ a → v ≤ b) := by
  have hupper := h.units_le hc
  have hlower := h.le_units hc
  rw [hn, hcode, hv, Nat.mul_le_mul_right_iff hk, Nat.mul_le_mul_right_iff hk] at hupper hlower
  exact ⟨hupper, hlower⟩

end Nearest

end BinaryFormat

end OpGraph
