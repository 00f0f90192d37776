/-
This file defines integer literals and their conversion to the signed words
that field numbers, enum numbers and range bounds are stored in. A literal that
does not fit converts to nothing.
-/

import ProtoSchema.Source.Span

namespace ProtoSchema

/-- An integer with an optional minus sign in front. -/
structure IntLiteral where
  negative : Bool
  magnitude : UInt64
  span : Span
deriving DecidableEq, Repr, Inhabited

namespace IntLiteral

/-- The literal as it is written in canonical form. -/
def text (literal : IntLiteral) : String :=
  (if literal.negative then "-" else "") ++ toString literal.magnitude.toNat

/-- The literal as a word of sixty-four bits. -/
def toInt64? (literal : IntLiteral) : Option Int64 :=
  if literal.negative then
    if literal.magnitude ≤ 0x8000000000000000 then some (-literal.magnitude.toInt64) else none
  else if literal.magnitude < 0x8000000000000000 then some literal.magnitude.toInt64 else none

/-- The literal as a word of thirty-two bits. -/
def toInt32? (literal : IntLiteral) : Option Int32 :=
  literal.toInt64?.bind fun wide =>
    if Int32.minValue.toInt64 ≤ wide ∧ wide ≤ Int32.maxValue.toInt64 then some wide.toInt32
    else none

/-- The number that a literal stands for in a field or an enum value. -/
def number? (literal : IntLiteral) : Option Int :=
  literal.toInt32?.map Int32.toInt

end IntLiteral

end ProtoSchema
