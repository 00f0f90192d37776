/-
This file proves that the digits a magnitude is written with read back as the
magnitude. Rounding a ratio depends on the ratio alone, not on the numerator and
denominator that spell it, so a decimal may be written with any number of trailing
zeros; and a ratio that is a magnitude is rounded to that magnitude. On every grid
the search keeps a decimal only if it reads back, so what is left is the exact
expansion that closes the search: it is neither so long nor so short that reading
it would skip the division, and the division gives the magnitude.
-/

import Mathlib.Data.Nat.Log
import Mathlib.Tactic.Linarith
import Mathlib.Tactic.Ring
import ProtoSchema.Number.Decimal

namespace ProtoSchema

namespace Magnitude

theorem fractions_eq : fractions = 2 ^ 52 := by decide

theorem fractions_pos : 0 < fractions := by decide

/-! ### Common factors -/

/-- Rounding a ratio does not see a common factor. -/
theorem ofRatio_mul_right (numerator denominator factor : Nat) (positive : 0 < factor) :
    ofRatio (numerator * factor) (denominator * factor) = ofRatio numerator denominator := by
  simp only [ofRatio]
  generalize granularity = unit
  have target : numerator * factor * unit = numerator * unit * factor := by ring
  have units : numerator * unit * factor / (denominator * factor) =
      numerator * unit / denominator := Nat.mul_div_mul_right _ _ positive
  simp only [target, units]
  generalize numerator * unit = whole
  generalize (whole / denominator).log2 - 52 = shift
  generalize whole / denominator / Nat.pow 2 shift = significand
  generalize Nat.pow 2 shift = power
  have step : power * (denominator * factor) = power * denominator * factor := by ring
  have excess : whole * factor - significand * (power * denominator * factor) =
      (whole - significand * (power * denominator)) * factor := by
    rw [Nat.sub_mul, Nat.mul_assoc significand]
  rw [step, excess, ← Nat.mul_assoc 2]
  generalize 2 * (whole - significand * (power * denominator)) = double
  generalize power * denominator = single
  have less : single * factor < double * factor ↔ single < double :=
    Nat.mul_lt_mul_right positive
  have same : single * factor = double * factor ↔ single = double :=
    Nat.mul_left_inj (Nat.pos_iff_ne_zero.mp positive)
  simp only [less, same]

/-! ### Exact ratios -/

/-- The significand of a finite magnitude and the power of two it is scaled by give back its units
and its pattern. -/
theorem significand_mul_pow (magnitude : Magnitude) :
    magnitude.units / 2 ^ (magnitude.units.log2 - 52) * 2 ^ (magnitude.units.log2 - 52) =
        magnitude.units ∧
      (magnitude.units.log2 - 52) * fractions +
        magnitude.units / 2 ^ (magnitude.units.log2 - 52) = magnitude.bits := by
  have split := Nat.div_add_mod magnitude.bits fractions
  have small : magnitude.bits % fractions < fractions := Nat.mod_lt _ (by decide)
  simp only [units]
  generalize magnitude.bits / fractions = exponent at split
  generalize magnitude.bits % fractions = fraction at split small
  by_cases subnormal : exponent = 0
  · subst subnormal
    have shift : fraction.log2 - 52 = 0 := by
      rcases Nat.eq_zero_or_pos fraction with rfl | positive
      · decide
      · have := (Nat.log2_lt (Nat.pos_iff_ne_zero.mp positive)).mpr (fractions_eq ▸ small)
        omega
    rw [if_pos rfl, shift]
    simpa using split
  · obtain ⟨above, rfl⟩ : ∃ above, exponent = above + 1 := ⟨exponent - 1, by omega⟩
    rw [if_neg subnormal, Nat.add_sub_cancel]
    show (fractions + fraction) * 2 ^ above / 2 ^ (((fractions + fraction) * 2 ^ above).log2 - 52) *
        2 ^ (((fractions + fraction) * 2 ^ above).log2 - 52) = (fractions + fraction) * 2 ^ above ∧
      (((fractions + fraction) * 2 ^ above).log2 - 52) * fractions +
        (fractions + fraction) * 2 ^ above / 2 ^ (((fractions + fraction) * 2 ^ above).log2 - 52) =
        magnitude.bits
    have powerPositive : 0 < 2 ^ above := Nat.two_pow_pos above
    have nonzero : (fractions + fraction) * 2 ^ above ≠ 0 := by
      have := Nat.mul_pos (Nat.add_pos_left fractions_pos fraction) powerPositive
      omega
    have log : ((fractions + fraction) * 2 ^ above).log2 = 52 + above := by
      rw [Nat.log2_eq_iff nonzero, Nat.pow_add, Nat.pow_add, Nat.pow_succ, Nat.pow_add,
        ← fractions_eq]
      constructor
      · exact Nat.mul_le_mul_right _ (Nat.le_add_right _ _)
      · have : fractions + fraction < fractions * 2 := by omega
        calc (fractions + fraction) * 2 ^ above < fractions * 2 * 2 ^ above :=
              Nat.mul_lt_mul_of_pos_right this powerPositive
          _ = fractions * 2 ^ above * 2 := by ring
    rw [log, Nat.add_sub_cancel_left, Nat.mul_div_cancel _ powerPositive]
    exact ⟨rfl, by linarith⟩

/-- A ratio that is a finite magnitude is rounded to it. -/
theorem ofRatio_exact (magnitude : Magnitude) (numerator denominator : Nat)
    (positive : 0 < denominator)
    (exact : numerator * granularity = magnitude.units * denominator)
    (finite : magnitude.bits ≤ infinity.bits) :
    ofRatio numerator denominator = magnitude := by
  obtain ⟨whole, pattern⟩ := significand_mul_pow magnitude
  have units : magnitude.units * denominator / denominator = magnitude.units :=
    Nat.mul_div_cancel _ positive
  have power (shift : Nat) : Nat.pow 2 shift = 2 ^ shift := rfl
  simp only [ofRatio, exact, units, power]
  rw [pattern, ← Nat.mul_assoc, whole, Nat.sub_self, if_neg, Nat.min_eq_left finite]
  rintro (less | ⟨same, -⟩)
  · omega
  · have : 0 < 2 ^ (magnitude.units.log2 - 52) * denominator :=
      Nat.mul_pos (Nat.two_pow_pos _) positive
    omega

/-! ### Counting digits -/

theorem digitCount_pos (number : Nat) : 0 < digitCount number :=
  Nat.length_toDigits_pos

theorem digitCount_le_iff (number count : Nat) (positive : 0 < count) :
    digitCount number ≤ count ↔ number < 10 ^ count :=
  Nat.length_toDigits_le_iff (by decide) positive

theorem lt_digitCount_of_le (number count : Nat) (large : 10 ^ count ≤ number) :
    count < digitCount number := by
  rcases Nat.eq_zero_or_pos count with rfl | positive
  · exact digitCount_pos number
  · by_contra small
    have := (digitCount_le_iff number count positive).mp (Nat.le_of_not_lt small)
    omega

theorem digitCount_eq_of_bounds (number count : Nat) (low : 10 ^ count ≤ number)
    (high : number < 10 ^ (count + 1)) : digitCount number = count + 1 := by
  have := lt_digitCount_of_le number count low
  have := (digitCount_le_iff number (count + 1) (Nat.succ_pos count)).mpr high
  omega

theorem digitCount_bounds (number : Nat) (positive : 0 < number) :
    ∃ count, digitCount number = count + 1 ∧ 10 ^ count ≤ number ∧ number < 10 ^ (count + 1) := by
  obtain ⟨count, length⟩ : ∃ count, digitCount number = count + 1 :=
    ⟨digitCount number - 1, by have := digitCount_pos number; omega⟩
  refine ⟨count, length, ?_, (digitCount_le_iff _ _ (Nat.succ_pos _)).mp length.le⟩
  by_contra small
  rcases Nat.eq_zero_or_pos count with rfl | countPositive
  · omega
  · have := (digitCount_le_iff number count countPositive).mpr (Nat.lt_of_not_le small)
    omega

/-- A power of ten adds its exponent to the number of digits. -/
theorem digitCount_mul_pow (number count : Nat) (positive : 0 < number) :
    digitCount (number * 10 ^ count) = digitCount number + count := by
  obtain ⟨length, eq, low, high⟩ := digitCount_bounds number positive
  have power : 0 < 10 ^ count := Nat.pow_pos (by decide)
  rw [eq, digitCount_eq_of_bounds (number * 10 ^ count) (length + count)]
  · omega
  · rw [Nat.pow_add]
    exact Nat.mul_le_mul_right _ low
  · rw [show length + count + 1 = length + 1 + count by omega, Nat.pow_add]
    exact Nat.mul_lt_mul_of_pos_right high power

/-! ### Trailing zeros -/

theorem ofRatio_pow (digits low high : Nat) :
    ofRatio (digits * 10 ^ high) (10 ^ (low + high)) = ofRatio digits (10 ^ low) := by
  rw [Nat.pow_add]
  exact ofRatio_mul_right digits (10 ^ low) (10 ^ high) (Nat.pow_pos (by decide))

/-- Zeros at the end of the digits count as a larger exponent. -/
theorem ofDecimal_mul_pow (digits count : Nat) (exponent : Int) :
    ofDecimal (digits * 10 ^ count) exponent = ofDecimal digits (exponent + count) := by
  rcases Nat.eq_zero_or_pos digits with rfl | positive
  · simp [ofDecimal]
  have power : 0 < 10 ^ count := Nat.pow_pos (by decide)
  have nonzero : ¬ digits * 10 ^ count = 0 := (Nat.mul_pos positive power).ne'
  have point : ((digitCount digits + count : Nat) : Int) + exponent =
      (digitCount digits : Int) + (exponent + count) := by omega
  simp only [ofDecimal, digitCount_mul_pow digits count positive, point, nonzero, positive.ne',
    false_or]
  split
  · rfl
  split
  · rfl
  have pow (number : Nat) : Nat.pow 10 number = 10 ^ number := rfl
  simp only [pow]
  by_cases whole : 0 ≤ exponent
  · rw [if_pos whole, if_pos (by omega), show (exponent + count).toNat = count + exponent.toNat by
      omega, Nat.pow_add, Nat.mul_assoc]
  · rw [if_neg whole]
    by_cases lifted : 0 ≤ exponent + count
    · rw [if_pos lifted]
      obtain ⟨rise, riseEq⟩ : ∃ rise : Nat, exponent + count = rise := ⟨_, (Int.toNat_of_nonneg lifted).symm⟩
      obtain ⟨fall, fallEq⟩ : ∃ fall : Nat, -exponent = fall := ⟨(-exponent).toNat, by omega⟩
      have sum : count = rise + fall := by omega
      have unit := ofRatio_pow (digits * 10 ^ rise) 0 fall
      rw [Nat.zero_add, Nat.pow_zero] at unit
      rw [riseEq, fallEq, Int.toNat_natCast, Int.toNat_natCast, ← unit, sum, Nat.pow_add,
        Nat.mul_assoc]
    · rw [if_neg lifted, ← ofRatio_pow digits (-(exponent + count)).toNat count,
        show (-(exponent + count)).toNat + count = (-exponent).toNat by omega]

/-! ### Exact expansions -/

theorem units_pos (magnitude : Magnitude) (nonzero : magnitude ≠ .zero) : 0 < magnitude.units := by
  have bits : magnitude.bits ≠ 0 := fun eq => nonzero (by cases magnitude; cases eq; rfl)
  simp only [units]
  split
  · next subnormal =>
    have := Nat.div_add_mod magnitude.bits fractions
    rw [subnormal] at this
    omega
  · exact Nat.mul_pos (Nat.add_pos_left fractions_pos _) (Nat.pow_pos (by decide))

theorem units_lt (magnitude : Magnitude) (top : Nat)
    (finite : magnitude.bits / fractions < top + 2) : magnitude.units < 2 ^ 53 * 2 ^ top := by
  have small : magnitude.bits % fractions < fractions := Nat.mod_lt _ (by decide)
  have fractionsEq := fractions_eq
  simp only [units]
  split
  · calc magnitude.bits % fractions < 2 ^ 53 * 1 := by omega
      _ ≤ 2 ^ 53 * 2 ^ top := Nat.mul_le_mul_left _ (Nat.two_pow_pos _)
  · have power : 2 ^ (magnitude.bits / fractions - 1) ≤ 2 ^ top :=
      Nat.pow_le_pow_right (by decide) (by omega)
    calc (fractions + magnitude.bits % fractions) * 2 ^ (magnitude.bits / fractions - 1)
        < 2 ^ 53 * 2 ^ (magnitude.bits / fractions - 1) :=
          Nat.mul_lt_mul_of_pos_right (by omega) (Nat.two_pow_pos _)
      _ ≤ 2 ^ 53 * 2 ^ top := Nat.mul_le_mul_left _ power

/-- A magnitude is read off its expansion to as many places as the smallest magnitude has, if the
expansion is neither so long nor so short that its digits would not be looked at. -/
theorem ofDecimal_expansion (magnitude : Magnitude) (places : Nat)
    (grain : granularity = 2 ^ places) (some : 0 < places)
    (finite : magnitude.bits ≤ infinity.bits) (positive : 0 < magnitude.units)
    (low : places ≤ digitCount (magnitude.units * 5 ^ places) + 330)
    (high : digitCount (magnitude.units * 5 ^ places) ≤ places + 310) :
    ofDecimal (magnitude.units * 5 ^ places) (-places) = magnitude := by
  have nonzero : ¬ magnitude.units * 5 ^ places = 0 :=
    (Nat.mul_pos positive (Nat.pow_pos (by decide))).ne'
  have pow (number : Nat) : Nat.pow 10 number = 10 ^ number := rfl
  simp only [ofDecimal, nonzero, false_or, pow]
  rw [if_neg (by omega), if_neg (by omega), if_neg (by omega), Int.neg_neg, Int.toNat_natCast]
  refine ofRatio_exact magnitude _ _ (Nat.pow_pos (by decide)) ?_ finite
  rw [grain, Nat.mul_assoc, ← Nat.mul_pow]

/-- The expansion of the smallest magnitude has enough digits. -/
theorem pow_five_low : 10 ^ 743 ≤ 5 ^ 1074 := by decide +kernel

/-- The expansion of the largest magnitude does not have too many digits. -/
theorem pow_five_high : 2 ^ 53 * 2 ^ 2045 * 5 ^ 1074 < 10 ^ 1383 := by decide +kernel

end Magnitude

namespace Decimal

open Magnitude

/-- The exact expansion of a positive finite magnitude reads back as it. -/
theorem exact_magnitude (magnitude : Magnitude) (nonzero : magnitude ≠ .zero)
    (finite : magnitude.bits < infinity.bits) : (exact magnitude).magnitude = magnitude := by
  have positive := units_pos magnitude nonzero
  have exponent : magnitude.bits / fractions < 2045 + 2 :=
    Nat.div_lt_of_lt_mul (by rw [Nat.mul_comm]; exact finite)
  have small := units_lt magnitude 2045 exponent
  have low : 743 < digitCount (magnitude.units * 5 ^ 1074) :=
    lt_digitCount_of_le _ _ (pow_five_low.trans (Nat.le_mul_of_pos_left _ positive))
  have high : digitCount (magnitude.units * 5 ^ 1074) ≤ 1383 :=
    (digitCount_le_iff _ _ (by decide)).mpr
      ((Nat.mul_le_mul_right _ small.le).trans_lt pow_five_high)
  exact ofDecimal_expansion magnitude 1074 rfl (by decide) finite.le positive (by omega) (by omega)

/-! ### The shortest digits -/

theorem onGrid?_magnitude (magnitude : Magnitude) (exponent : Int) (decimal : Decimal)
    (found : onGrid? magnitude exponent = some decimal) : decimal.magnitude = magnitude := by
  simp only [onGrid?] at found
  split at found
  · next low =>
    cases found
    exact low.1
  · split at found
    · next high =>
      cases found
      exact high
    · cases found

/-- The shortest digits of a positive finite magnitude read back as it. -/
theorem shortest_magnitude (magnitude : Magnitude) (nonzero : magnitude ≠ .zero)
    (finite : magnitude.bits < infinity.bits) : (shortest magnitude).magnitude = magnitude := by
  simp only [shortest]
  cases search : (List.range 17).findSome? fun count =>
      onGrid? magnitude (pointOf magnitude - (count + 1 : Nat)) with
  | none => exact exact_magnitude magnitude nonzero finite
  | some decimal =>
    obtain ⟨_, count, _, _, found, _⟩ := List.findSome?_eq_some_iff.mp search
    exact onGrid?_magnitude magnitude _ decimal found

end Decimal

end ProtoSchema
