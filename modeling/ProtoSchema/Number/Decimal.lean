/-
This file writes magnitudes in decimal. The digits are the fewest that read
back as the same magnitude, and of the equally short ones the nearest to it, a
tie going up. They are found on the grids of one, two, up to seventeen digits:
on each grid only the two neighbours of the magnitude can do. The exact decimal
expansion, which every finite magnitude has, closes the search.
-/

import ProtoSchema.Number.Double

namespace ProtoSchema

/-- The number `digits * 10 ^ exponent`. -/
structure Decimal where
  digits : Nat
  exponent : Int
deriving DecidableEq, Repr, Inhabited

namespace Decimal

/-- The magnitude a decimal is read as. -/
def magnitude (decimal : Decimal) : Magnitude :=
  .ofDecimal decimal.digits decimal.exponent

/-- The exact value of a finite magnitude. -/
def exact (magnitude : Magnitude) : Decimal :=
  ⟨magnitude.units * Nat.pow 5 1074, -1074⟩

/-- The number `point` with `10 ^ (point - 1) ≤ magnitude < 10 ^ point`, for a positive finite
magnitude: the place of the decimal point relative to the first digit. -/
def pointOf (magnitude : Magnitude) : Int :=
  Magnitude.digitCount (magnitude.units * Nat.pow 10 330 / Magnitude.granularity) - 330

/-- The largest decimal with the given exponent that is not above the magnitude. -/
def below (magnitude : Magnitude) (exponent : Int) : Decimal :=
  if 0 ≤ exponent then
    ⟨magnitude.units / (Magnitude.granularity * Nat.pow 10 exponent.toNat), exponent⟩
  else
    ⟨magnitude.units * Nat.pow 10 (-exponent).toNat / Magnitude.granularity, exponent⟩

/-- The next decimal on the same grid. -/
def next (decimal : Decimal) : Decimal :=
  ⟨decimal.digits + 1, decimal.exponent⟩

/-- Whether the magnitude lies strictly below the middle between a decimal and the next one. -/
def isNearer (decimal : Decimal) (magnitude : Magnitude) : Bool :=
  if 0 ≤ decimal.exponent then
    2 * magnitude.units <
      (2 * decimal.digits + 1) * (Magnitude.granularity * Nat.pow 10 decimal.exponent.toNat)
  else
    2 * magnitude.units * Nat.pow 10 (-decimal.exponent).toNat <
      (2 * decimal.digits + 1) * Magnitude.granularity

/-- The neighbour of the magnitude on the grid of an exponent that reads back as it, if any; of
two the nearer. -/
def onGrid? (magnitude : Magnitude) (exponent : Int) : Option Decimal :=
  let low := below magnitude exponent
  let lowReadsBack := low.magnitude = magnitude
  let highReadsBack := low.next.magnitude = magnitude
  if lowReadsBack ∧ (highReadsBack → low.isNearer magnitude) then some low
  else if highReadsBack then some low.next
  else none

/-- The decimal with the fewest digits that reads back as a positive finite magnitude. -/
def shortest (magnitude : Magnitude) : Decimal :=
  let point := pointOf magnitude
  ((List.range 17).findSome? fun count => onGrid? magnitude (point - (count + 1 : Nat))).getD
    (exact magnitude)

/-! ### Layout -/

/-- The digits of a decimal without trailing zeros, and the place of its decimal point relative
to the first digit. -/
def scientific (decimal : Decimal) : List Char × Int :=
  let digits := Nat.toDigits 10 decimal.digits
  ((digits.reverse.dropWhile (· = '0')).reverse, digits.length + decimal.exponent)

/-- The digits with a decimal point and at least one digit on either side of it. -/
def positional (digits : List Char) (point : Int) : String :=
  if point ≤ 0 then
    "0." ++ String.ofList (List.replicate (-point).toNat '0' ++ digits)
  else if (digits.length : Int) ≤ point then
    String.ofList (digits ++ List.replicate (point - digits.length).toNat '0') ++ ".0"
  else
    String.ofList (digits.take point.toNat) ++ "." ++ String.ofList (digits.drop point.toNat)

/-- One digit before the point, the others after it, and an exponent. -/
def exponential (digits : List Char) (point : Int) : String :=
  let fraction := String.ofList (digits.drop 1)
  String.ofList (digits.take 1) ++ (if fraction = "" then "" else "." ++ fraction) ++
    "e" ++ toString (point - 1)

/-- Where the decimal point may stand, relative to the first digit, in a number written without an
exponent; a bound that is absent does not bound. -/
structure Style where
  lowest : Option Int
  highest : Option Int
deriving DecidableEq, Repr

/-- Whether a style writes numbers with this decimal point without an exponent. -/
def Style.admits (style : Style) (point : Int) : Bool :=
  style.lowest.all (· ≤ point) && style.highest.all (point ≤ ·)

/-- The shortest text of a magnitude in a style. -/
def text (style : Style) (magnitude : Magnitude) : String :=
  if magnitude.isInfinite then "inf"
  else if magnitude = .zero then "0.0"
  else
    let (digits, point) := (shortest magnitude).scientific
    if style.admits point then positional digits point else exponential digits point

end Decimal

end ProtoSchema
