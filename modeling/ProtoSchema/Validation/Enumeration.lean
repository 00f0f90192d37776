/-
This file checks enums: there is a first value and its number is zero, values
have names of their own, and numbers of their own unless the enum allows
aliases.
-/

import ProtoSchema.Validation.Clashes
import ProtoSchema.Validation.ReservedNumbers

namespace ProtoSchema

/-- A value that has a number, with that number. -/
structure NumberedValue where
  value : EnumValue
  number : Int

namespace NumberedValue

/-- A value of an enum with its number, if the number fits. -/
def ofValue? (value : EnumValue) : Option NumberedValue :=
  value.number.number?.map fun number => ⟨value, number⟩

/-- A value whose number another value has taken. -/
def repeatedNumber (first second : NumberedValue) : SemanticFault :=
  ⟨.repeatedEnumNumber second.number first.value.number.span, second.value.number.span⟩

end NumberedValue

namespace Enumeration

/-- There is a value, and the number of the first is zero. -/
def firstValueFaults (enumeration : Enumeration) : List SemanticFault :=
  match enumeration.values with
  | [] => [⟨.emptyEnum, enumeration.name.span⟩]
  | first :: _ =>
    if first.number.number? = some 0 then [] else [⟨.firstEnumValueNotZero, first.number.span⟩]

/-- Values have names of the right form, each its own. -/
def valueNameFaults (enumeration : Enumeration) : List SemanticFault :=
  enumeration.values.flatMap (fun value => typeNameFaults .enumValue value.name) ++
    repeatedNames (enumeration.values.map (·.name))

/-- No two values have one number, unless aliases are allowed. -/
def valueNumberFaults (enumeration : Enumeration) : List SemanticFault :=
  if enumeration.allowsAliases then []
  else
    (clashes NumberedValue.number (enumeration.values.filterMap NumberedValue.ofValue?)).map
      fun (first, second) => first.repeatedNumber second

/-- The reserved ranges are right, and no value has a number or a name that is reserved. -/
def reservedFaults (enumeration : Enumeration) : List SemanticFault :=
  DeclaredRange.faults .enumValue (enumeration.reserved.flatMap Reserved.ranges) ++
    enumeration.values.flatMap fun value =>
      reservationFaults enumeration.reserved .enumValue value.number value.name

/-- Everything wrong with an enum. -/
def faults (enumeration : Enumeration) : List SemanticFault :=
  typeNameFaults .enumeration enumeration.name ++ enumeration.firstValueFaults ++
    enumeration.valueNameFaults ++ enumeration.valueNumberFaults ++ enumeration.reservedFaults

end Enumeration

end ProtoSchema
