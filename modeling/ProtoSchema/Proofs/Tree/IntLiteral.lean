/-
This file says what number an integer literal stands for, and that a literal
converts to a word just in case that number is one of the word's, and then to
that number: no word is ever wrapped, and none that fits is refused.
-/

import Mathlib.Algebra.Group.Int.Defs
import Mathlib.Algebra.Group.Nat.Defs
import ProtoSchema.Tree.IntLiteral

namespace ProtoSchema

namespace IntLiteral

/-- The number that a literal spells. -/
def value (literal : IntLiteral) : Int :=
  if literal.negative then -(literal.magnitude.toNat : Int) else literal.magnitude.toNat

theorem toInt_toInt64 (magnitude : UInt64) :
    magnitude.toInt64.toInt = (magnitude.toNat : Int).bmod (2 ^ 64) := by
  rw [← Int64.toInt_toBitVec, UInt64.toBitVec_toInt64, BitVec.toInt_eq_toNat_bmod]
  rfl

theorem toInt_of_toInt64? {literal : IntLiteral} {wide : Int64}
    (fits : literal.toInt64? = some wide) : wide.toInt = literal.value := by
  obtain ⟨negative, magnitude, span⟩ := literal
  have bound (limit : Int) (low : -(2 ^ 63) ≤ limit) (high : limit < 2 ^ 63) :
      limit.bmod (2 ^ 64) = limit := Int.bmod_eq_of_le (by omega) (by omega)
  simp only [toInt64?, value] at fits ⊢
  cases negative with
  | false =>
    simp only [Bool.false_eq_true, if_false, Option.ite_none_right_eq_some, Option.some.injEq,
      UInt64.lt_iff_toNat_lt] at fits ⊢
    obtain ⟨small, rfl⟩ := fits
    rw [toInt_toInt64, bound _ (by omega) (by simpa using Int.ofNat_lt.mpr small)]
  | true =>
    simp only [if_true, Option.ite_none_right_eq_some, Option.some.injEq,
      UInt64.le_iff_toNat_le] at fits ⊢
    obtain ⟨small, rfl⟩ := fits
    have limit : (0x8000000000000000 : UInt64).toNat = 2 ^ 63 := rfl
    rw [limit] at small
    rw [Int64.toInt_neg, toInt_toInt64, Int.bmod_neg_bmod]
    exact bound _ (by omega) (by omega)

theorem toInt_of_toInt32? {literal : IntLiteral} {narrow : Int32}
    (fits : literal.toInt32? = some narrow) : narrow.toInt = literal.value := by
  obtain ⟨wide, wideFits, bounds⟩ := Option.bind_eq_some_iff.mp fits
  rw [Option.ite_none_right_eq_some, Option.some.injEq, Int64.le_iff_toInt_le,
    Int64.le_iff_toInt_le] at bounds
  obtain ⟨⟨low, high⟩, rfl⟩ := bounds
  have least : Int32.minValue.toInt64.toInt = -(2 ^ 31) := rfl
  have greatest : Int32.maxValue.toInt64.toInt = 2 ^ 31 - 1 := rfl
  rw [Int64.toInt_toInt32, ← toInt_of_toInt64? wideFits, Int.bmod_eq_of_le (by omega) (by omega)]

/-- The number of a literal that has one is the number it spells. -/
theorem value_of_number? {literal : IntLiteral} {number : Int}
    (fits : literal.number? = some number) : number = literal.value := by
  obtain ⟨narrow, narrowFits, rfl⟩ := Option.map_eq_some_iff.mp fits
  exact toInt_of_toInt32? narrowFits

/-! ### Numbers that fit -/

/-- The number is one that a word of sixty-four bits holds. -/
def FitsInt64 (literal : IntLiteral) : Prop := -(2 ^ 63) ≤ literal.value ∧ literal.value < 2 ^ 63

/-- The number is one that a word of thirty-two bits holds. -/
def FitsInt32 (literal : IntLiteral) : Prop := -(2 ^ 31) ≤ literal.value ∧ literal.value < 2 ^ 31

instance (literal : IntLiteral) : Decidable literal.FitsInt64 :=
  inferInstanceAs (Decidable (_ ∧ _))

instance (literal : IntLiteral) : Decidable literal.FitsInt32 :=
  inferInstanceAs (Decidable (_ ∧ _))

theorem isSome_toInt64?_iff (literal : IntLiteral) :
    literal.toInt64?.isSome ↔ literal.FitsInt64 := by
  obtain ⟨negative, magnitude, span⟩ := literal
  have limit : (0x8000000000000000 : UInt64).toNat = 2 ^ 63 := rfl
  rw [toInt64?, FitsInt64, value]
  cases negative with
  | false =>
    simp only [Bool.false_eq_true, if_false, Option.isSome_ite, UInt64.lt_iff_toNat_lt, limit]
    omega
  | true =>
    simp only [if_true, Option.isSome_ite, UInt64.le_iff_toNat_le, limit]
    omega

/-- A literal is read as its number if that fits a word of sixty-four bits. -/
theorem map_toInt64?_eq (literal : IntLiteral) :
    literal.toInt64?.map Int64.toInt =
      if literal.FitsInt64 then some literal.value else none := by
  split
  · next fits =>
    obtain ⟨wide, found⟩ := Option.isSome_iff_exists.mp (literal.isSome_toInt64?_iff.mpr fits)
    rw [found, Option.map_some, toInt_of_toInt64? found]
  · next outside =>
    rw [Option.map_eq_none_iff, ← Option.not_isSome_iff_eq_none]
    exact mt literal.isSome_toInt64?_iff.mp outside

theorem isSome_toInt32?_iff (literal : IntLiteral) :
    literal.toInt32?.isSome ↔ literal.FitsInt32 := by
  have least : Int32.minValue.toInt64.toInt = -(2 ^ 31) := rfl
  have greatest : Int32.maxValue.toInt64.toInt = 2 ^ 31 - 1 := rfl
  rw [toInt32?]
  cases found : literal.toInt64? with
  | none =>
    have outside : ¬ literal.FitsInt64 := by
      rw [← isSome_toInt64?_iff, found]
      exact Bool.false_ne_true
    rw [FitsInt64] at outside
    simp only [Option.bind_none, Option.isSome_none, Bool.false_eq_true, false_iff, FitsInt32]
    omega
  | some wide =>
    simp only [Option.bind_some, Option.isSome_ite, Int64.le_iff_toInt_le, least, greatest,
      FitsInt32, toInt_of_toInt64? found]
    omega

/-- A literal is read as its number if that fits a word of thirty-two bits. -/
theorem number?_eq (literal : IntLiteral) :
    literal.number? = if literal.FitsInt32 then some literal.value else none := by
  split
  · next fits =>
    obtain ⟨narrow, found⟩ := Option.isSome_iff_exists.mp (literal.isSome_toInt32?_iff.mpr fits)
    rw [number?, found, Option.map_some, toInt_of_toInt32? found]
  · next outside =>
    rw [number?, Option.map_eq_none_iff, ← Option.not_isSome_iff_eq_none]
    exact mt literal.isSome_toInt32?_iff.mp outside

end IntLiteral

end ProtoSchema
