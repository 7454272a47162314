import Mathlib.Algebra.Group.Nat.Defs
import OpGraph.Json.Numeral

/-!
# Written numerals

Scanning finds a written numeral again, whatever follows it, as long as that does not go on with
the numeral.
-/

namespace OpGraph.Json

/-! ## Digits -/

/-- No run of digits goes on with these characters. -/
def NoDigit (cs : List Char) : Prop := ∀ c rest, cs = c :: rest → c.isDigit = false

theorem takeWhile_digits {ds rest : List Char} (hd : ∀ c ∈ ds, c.isDigit) (hr : NoDigit rest) :
    (ds ++ rest).takeWhile Char.isDigit = ds := by
  rw [List.takeWhile_append_of_pos hd]
  cases rest with
  | nil => simp
  | cons c rest => rw [List.takeWhile_cons_of_neg (by simp [hr c rest rfl]), List.append_nil]

theorem dropWhile_digits {ds rest : List Char} (hd : ∀ c ∈ ds, c.isDigit) (hr : NoDigit rest) :
    (ds ++ rest).dropWhile Char.isDigit = rest := by
  rw [List.dropWhile_append_of_pos hd]
  cases rest with
  | nil => rfl
  | cons c rest => rw [List.dropWhile_cons_of_neg (by simp [hr c rest rfl])]

theorem isDigit_of_mem_padded {width n : Nat} {c : Char} (h : c ∈ padded width n) : c.isDigit := by
  induction width generalizing n with
  | zero => simp at h
  | succ width ih =>
      rcases List.mem_append.mp h with h | h
      · exact ih h
      · rw [List.mem_singleton.mp h, Nat.isDigit_digitChar]
        exact decide_eq_true (Nat.mod_lt n (by decide))

theorem ofDigitChars_padded (width n before : Nat) :
    Nat.ofDigitChars 10 (padded width n) before = before * 10 ^ width + n % 10 ^ width := by
  induction width generalizing n with
  | zero => simp [Nat.mod_one]
  | succ width ih =>
      have hlast : n % 10 < 10 := Nat.mod_lt n (by decide)
      rw [padded, Nat.ofDigitChars_append, ih, Nat.ofDigitChars_cons_digitChar_of_lt_ten hlast,
        Nat.ofDigitChars_nil, Nat.pow_succ', Nat.mod_mul, Nat.mul_add, Nat.mul_left_comm]
      omega

namespace Numeral

theorem natural_append_padded (n places : Nat) :
    natural (Nat.toDigits 10 (n / 10 ^ places) ++ padded places n) = n := by
  rw [natural, Nat.ofDigitChars_append, Nat.ofDigitChars_ten_toDigits, ofDigitChars_padded,
    Nat.div_add_mod']

theorem isDigit_of_mem_toDigits {n : Nat} {c : Char} (h : c ∈ Nat.toDigits 10 n) : c.isDigit :=
  Nat.isDigit_of_mem_toDigits (by decide) (by decide) h

theorem head?_toDigits_ne_zero {n : Nat} (h : 0 < n) :
    (Nat.toDigits 10 n).head? ≠ some '0' := by
  by_cases hn : n < 10
  · rw [Nat.toDigits_of_lt_base hn]
    simpa using Nat.ne_of_gt h
  · have ih := head?_toDigits_ne_zero (n := n / 10) (by omega)
    obtain ⟨c, cs, hcs⟩ := List.exists_cons_of_ne_nil (Nat.toDigits_ne_nil (b := 10) (n := n / 10))
    rw [Nat.toDigits_of_base_le (by decide) (by omega)]
    rw [hcs] at ih ⊢
    exact ih

theorem not_leadingZero (n : Nat) :
    ¬ ((Nat.toDigits 10 n).head? = some '0' ∧ 1 < (Nat.toDigits 10 n).length) := by
  rintro ⟨hhead, hlength⟩
  cases Nat.eq_zero_or_pos n with
  | inl h => simp [h] at hlength
  | inr h => exact head?_toDigits_ne_zero h hhead

/-! ## Parts of a numeral -/

/-- No numeral goes on with these characters. -/
def Stops (cs : List Char) : Prop :=
  ∀ c rest, cs = c :: rest → c.isDigit = false ∧ c ≠ '.' ∧ c ≠ 'e' ∧ c ≠ 'E'

theorem Stops.noDigit {cs : List Char} (h : Stops cs) : NoDigit cs :=
  fun c rest hcs => (h c rest hcs).1

theorem scanPower_toDigits (negative : Bool) (n : Nat) {rest : List Char} (h : NoDigit rest) :
    scanPower negative (Nat.toDigits 10 n ++ rest) =
      some (some (if negative then -(n : Int) else n), rest) := by
  have hdigits (c : Char) (hc : c ∈ Nat.toDigits 10 n) : c.isDigit := isDigit_of_mem_toDigits hc
  rw [scanPower, takeWhile_digits hdigits h, dropWhile_digits hdigits h,
    if_neg Nat.toDigits_ne_nil, natural, Nat.ofDigitChars_ten_toDigits]

theorem scanExponent_exponentChars (exponent : Option Int) {rest : List Char} (h : Stops rest) :
    scanExponent (exponent.elim [] exponentChars ++ rest) = some (exponent, rest) := by
  cases exponent with
  | none =>
      cases rest with
      | nil => rfl
      | cons c rest =>
          obtain ⟨_, _, he, hE⟩ := h c rest rfl
          exact if_neg (not_or.mpr ⟨he, hE⟩)
  | some e =>
      by_cases he : e < 0
      · have hchars : exponentChars e ++ rest =
            'e' :: '-' :: (Nat.toDigits 10 e.natAbs ++ rest) := by
          simp [exponentChars, he]
        have habs : -(e.natAbs : Int) = e := by omega
        rw [Option.elim_some, hchars]
        exact (scanPower_toDigits true e.natAbs h.noDigit).trans (by rw [if_pos rfl, habs])
      · have hchars : exponentChars e ++ rest =
            'e' :: '+' :: (Nat.toDigits 10 e.natAbs ++ rest) := by
          simp [exponentChars, he]
        have habs : (e.natAbs : Int) = e := by omega
        rw [Option.elim_some, hchars]
        exact (scanPower_toDigits false e.natAbs h.noDigit).trans (by simp [habs])

/-- Neither a digit nor a point follows, whether there is an exponent or not. -/
theorem exponentChars_head (exponent : Option Int) {rest : List Char} (h : Stops rest) :
    NoDigit (exponent.elim [] exponentChars ++ rest) ∧
      ∀ tail, exponent.elim [] exponentChars ++ rest ≠ '.' :: tail := by
  cases exponent with
  | none => exact ⟨h.noDigit, fun tail hrest => (h _ _ hrest).2.1 rfl⟩
  | some e =>
      refine ⟨?_, nofun⟩
      rintro c tail ⟨⟩
      rfl

theorem scanFraction_none {cs : List Char} (h : ∀ tail, cs ≠ '.' :: tail) :
    scanFraction cs = some ([], cs) := by
  unfold scanFraction
  split
  · exact absurd rfl (h _)
  · rfl

theorem scanFraction_point {places n : Nat} {cs : List Char} (hplaces : places ≠ 0)
    (h : NoDigit cs) :
    scanFraction ('.' :: padded places n ++ cs) = some (padded places n, cs) := by
  have hdigits (c : Char) (hc : c ∈ padded places n) : c.isDigit := isDigit_of_mem_padded hc
  have hne : padded places n ≠ [] := by
    rw [← List.length_pos_iff, length_padded]
    exact Nat.pos_of_ne_zero hplaces
  rw [List.cons_append, scanFraction, takeWhile_digits hdigits h, dropWhile_digits hdigits h,
    if_neg hne]

/-! ## Whole numerals -/

theorem scanUnsigned_chars (n : Numeral) {rest : List Char} (h : Stops rest) :
    scanUnsigned n.negative (Nat.toDigits 10 (n.digits / 10 ^ n.places) ++
      ((if n.places = 0 then [] else '.' :: padded n.places n.digits) ++
        (n.exponent.elim [] exponentChars ++ rest))) = some (n, rest) := by
  obtain ⟨hdigit, hpoint⟩ := exponentChars_head n.exponent h
  have hfraction : scanFraction ((if n.places = 0 then [] else '.' :: padded n.places n.digits) ++
      (n.exponent.elim [] exponentChars ++ rest)) =
        some (padded n.places n.digits, n.exponent.elim [] exponentChars ++ rest) := by
    split
    · rename_i hplaces
      rw [hplaces]
      exact scanFraction_none hpoint
    · rename_i hplaces
      exact scanFraction_point hplaces hdigit
  have hstart : NoDigit ((if n.places = 0 then [] else '.' :: padded n.places n.digits) ++
      (n.exponent.elim [] exponentChars ++ rest)) := by
    split
    · exact hdigit
    · rintro c tail ⟨⟩
      rfl
  have hdigits (c : Char) (hc : c ∈ Nat.toDigits 10 (n.digits / 10 ^ n.places)) : c.isDigit :=
    isDigit_of_mem_toDigits hc
  unfold scanUnsigned
  simp only [takeWhile_digits hdigits hstart, dropWhile_digits hdigits hstart, hfraction]
  rw [if_neg (not_or.mpr ⟨Nat.toDigits_ne_nil, not_leadingZero _⟩), Option.bind_some]
  simp only [scanExponent_exponentChars n.exponent h, natural_append_padded, length_padded,
    Option.map_some]

theorem scan_of_isDigit {c : Char} {cs : List Char} (h : c.isDigit) :
    scan (c :: cs) = scanUnsigned false (c :: cs) := by
  unfold scan
  split
  · rename_i heq
    cases heq
    cases h
  · rfl

/-- A written numeral is found again. -/
theorem scan_chars (n : Numeral) {rest : List Char} (h : Stops rest) :
    scan (n.chars ++ rest) = some (n, rest) := by
  have hscan := scanUnsigned_chars n h
  obtain ⟨c, cs, hwhole⟩ := List.exists_cons_of_ne_nil
    (Nat.toDigits_ne_nil (b := 10) (n := n.digits / 10 ^ n.places))
  have hc : c.isDigit := isDigit_of_mem_toDigits (hwhole ▸ List.mem_cons_self)
  simp only [chars, Nat.pow_eq, List.append_assoc]
  cases hnegative : n.negative with
  | true =>
      rw [hnegative] at hscan
      exact hscan
  | false =>
      rw [hnegative] at hscan
      rw [hwhole] at hscan ⊢
      exact (scan_of_isDigit hc).trans hscan

end Numeral

end OpGraph.Json
