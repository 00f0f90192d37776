/-
This file models double-precision numbers exactly, on natural numbers. A
magnitude is a bit pattern without its sign, so magnitudes are ordered as their
patterns are, and each finite one is a whole number of the smallest positive
magnitude. A ratio of naturals is rounded to the nearest magnitude, a tie going
to the even pattern; a ratio too large for the format becomes infinity.
-/

namespace ProtoSchema

/-- A non-negative double-precision number or infinity, as the bit pattern it has when its sign
bit is clear: eleven bits of exponent above fifty-two bits of fraction. -/
structure Magnitude where
  bits : Nat
deriving DecidableEq, Repr, Inhabited

namespace Magnitude

/-- The number of fraction values of each exponent. -/
def fractions : Nat := 0x10000000000000

/-- The smallest positive magnitude is one part in this many. -/
def granularity : Nat := Nat.pow 2 1074

/-- The number zero, without a sign. -/
def zero : Magnitude := ⟨0⟩

/-- The pattern with the greatest exponent and no fraction. -/
def infinity : Magnitude := ⟨2047 * fractions⟩

/-- Whether the magnitude is no finite one. -/
def isInfinite (magnitude : Magnitude) : Bool :=
  infinity.bits ≤ magnitude.bits

/-- A finite magnitude as a multiple of the smallest positive one. -/
def units (magnitude : Magnitude) : Nat :=
  let exponent := magnitude.bits / fractions
  let fraction := magnitude.bits % fractions
  if exponent = 0 then fraction else (fractions + fraction) * Nat.pow 2 (exponent - 1)

/-- Whether the magnitude is a whole number. -/
def isIntegral (magnitude : Magnitude) : Bool :=
  magnitude.units % granularity = 0

/-- The part of a finite magnitude before the point. -/
def whole (magnitude : Magnitude) : Nat :=
  magnitude.units / granularity

/-! ### Rounding -/

/-- The magnitude nearest to a ratio; of two equally near, the one with the even pattern. -/
def ofRatio (numerator denominator : Nat) : Magnitude :=
  let target := numerator * granularity
  let units := target / denominator
  let shift := units.log2 - 52
  let significand := units / Nat.pow 2 shift
  let below := shift * fractions + significand
  let step := Nat.pow 2 shift * denominator
  let excess := target - significand * step
  let rounded :=
    if step < 2 * excess ∨ (step = 2 * excess ∧ significand % 2 = 1) then below + 1 else below
  ⟨min rounded infinity.bits⟩

/-- The number of decimal digits of a natural number. -/
def digitCount (number : Nat) : Nat :=
  (Nat.toDigits 10 number).length

/-- The magnitude nearest to `digits * 10 ^ exponent`. Exponents so far out that the answer is
infinity or zero whatever the digits are answered without building the power. -/
def ofDecimal (digits : Nat) (exponent : Int) : Magnitude :=
  let point := (digitCount digits : Int) + exponent
  if digits = 0 ∨ point < -330 then zero
  else if 310 < point then infinity
  else if 0 ≤ exponent then ofRatio (digits * Nat.pow 10 exponent.toNat) 1
  else ofRatio digits (Nat.pow 10 (-exponent).toNat)

end Magnitude

/-- A double-precision number with its sign; the values that are no number are one value here. -/
inductive Double where
  | nan
  | number (negative : Bool) (magnitude : Magnitude)
deriving DecidableEq, Repr, Inhabited

namespace Double

/-- The sixty-four bits of a number, `none` for the value that is no number. -/
def bits? : Double → Option Nat
  | nan => none
  | number negative magnitude =>
    some (if negative then 0x8000000000000000 + magnitude.bits else magnitude.bits)

end Double

end ProtoSchema
