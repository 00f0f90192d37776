/-
This file checks ranges of numbers and looks numbers and names up among those
that are reserved. A range that is malformed is reported and reserves nothing.
-/

import ProtoSchema.Diagnostic.Fault
import ProtoSchema.Tree.Declaration

namespace ProtoSchema

/-- What the numbers of a range belong to. -/
inductive RangeKind where
  | field
  | enumValue
deriving DecidableEq, Repr

namespace RangeKind

/-- The least number that can be reserved. -/
def least : RangeKind → Int
  | field => 1
  | enumValue => -2147483648

/-- The greatest number that can be reserved, which the word for the maximum stands for. -/
def greatest : RangeKind → Int
  | field => maxFieldNumber
  | enumValue => 2147483647

/-- The fault of a number outside the bounds. -/
def outside (kind : RangeKind) (span : Span) : SemanticFault :=
  match kind with
  | field => ⟨.fieldNumberOutOfRange, span⟩
  | enumValue => ⟨.enumNumberOutOfRange, span⟩

end RangeKind

/-- A range with its bounds worked out, both of them included. -/
structure Interval where
  first : Int
  last : Int
  span : Span
deriving DecidableEq, Repr

/-- Whether a number is in the interval. -/
def Interval.contains (interval : Interval) (number : Int) : Bool :=
  interval.first ≤ number && number ≤ interval.last

/-- A bound of a range, unless it fits no word. -/
def RangeKind.bound (kind : RangeKind) (literal : IntLiteral) : Except SemanticFault Int :=
  match literal.toInt64? with
  | some value => .ok value.toInt
  | none => .error (kind.outside literal.span)

namespace Range

/-- The last number of a range whose first is given. -/
def lastNumber (range : Range) (kind : RangeKind) (first : Int) : Except SemanticFault Int :=
  match range.last with
  | .absent => .ok first
  | .int literal => kind.bound literal
  | .max _ => .ok kind.greatest

/-- The interval of a range that is in order and within bounds. A reversed range is reported at
the declaration it stands in. -/
def interval (range : Range) (kind : RangeKind) (declaration : Span) :
    Except SemanticFault Interval := do
  let first ← kind.bound range.first
  let last ← range.lastNumber kind first
  if last < first then throw ⟨.reversedRange first last, declaration⟩
  else if first < kind.least ∨ kind.greatest < last then throw (kind.outside range.span)
  else return ⟨first, last, range.span⟩

end Range

/-- A range and the span of the declaration it stands in. -/
structure DeclaredRange where
  range : Range
  declaration : Span
deriving DecidableEq, Repr

namespace DeclaredRange

/-- The numbers of a declared range, or what is wrong with it. -/
def interval (declared : DeclaredRange) (kind : RangeKind) : Except SemanticFault Interval :=
  declared.range.interval kind declared.declaration

/-- The intervals of the ranges that are well formed. -/
def intervals (kind : RangeKind) (ranges : List DeclaredRange) : List Interval :=
  ranges.filterMap fun declared => (declared.interval kind).toOption

/-- The faults of the ranges that are not. -/
def faults (kind : RangeKind) (ranges : List DeclaredRange) : List SemanticFault :=
  ranges.filterMap fun declared =>
    match declared.interval kind with
    | .ok _ => none
    | .error fault => some fault

end DeclaredRange

namespace Reserved

/-- The ranges among what is reserved. -/
def ranges (reserved : Reserved) : List DeclaredRange :=
  match reserved.items with
  | .ranges ranges => ranges.map fun range => ⟨range, reserved.span⟩
  | .names _ => []

/-- The names among what is reserved. -/
def names (reserved : Reserved) : List Name :=
  match reserved.items with
  | .ranges _ => []
  | .names names => names

end Reserved

/-- The ranges of a message that are left to extensions. -/
def ExtensionRanges.declared (extensions : ExtensionRanges) : List DeclaredRange :=
  extensions.ranges.map fun range => ⟨range, extensions.span⟩

/-- Where a number is reserved, if it is. -/
def reservedNumber? (intervals : List Interval) (number : Int) : Option Span :=
  (intervals.find? fun interval => interval.contains number).map (·.span)

/-- Where a name is reserved, if it is. -/
def reservedName? (reserved : List Reserved) (text : String) : Option Span :=
  ((reserved.flatMap Reserved.names).find? fun name => name.text = text).map (·.span)

/-- The faults of a field or enum value that uses a reserved number or name. -/
def reservationFaults (reserved : List Reserved) (kind : RangeKind) (number : IntLiteral)
    (name : Name) : List SemanticFault :=
  let intervals := DeclaredRange.intervals kind (reserved.flatMap Reserved.ranges)
  let numberFault := do
    let value ← number.number?
    let span ← reservedNumber? intervals value
    return (⟨.reservedNumberUsed value span, number.span⟩ : SemanticFault)
  let nameFault := (reservedName? reserved name.text).map fun span =>
    (⟨.reservedNameUsed name.text span, name.span⟩ : SemanticFault)
  numberFault.toList ++ nameFault.toList

end ProtoSchema
