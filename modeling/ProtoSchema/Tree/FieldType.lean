/-
This file defines the types a field can have: a scalar, a type given by name,
or a map. A tree may hold a map whose values are maps again, to any depth; no
source spells such a type.
-/

import ProtoSchema.Tree.Name

namespace ProtoSchema

/-- The types that are built in. -/
inductive Scalar where
  | double
  | float
  | int32
  | int64
  | uint32
  | uint64
  | sint32
  | sint64
  | fixed32
  | fixed64
  | sfixed32
  | sfixed64
  | bool
  | string
  | bytes
deriving DecidableEq, Repr

namespace Scalar

/-- The word for a type that is built in. -/
def name : Scalar → String
  | double => "double"
  | float => "float"
  | int32 => "int32"
  | int64 => "int64"
  | uint32 => "uint32"
  | uint64 => "uint64"
  | sint32 => "sint32"
  | sint64 => "sint64"
  | fixed32 => "fixed32"
  | fixed64 => "fixed64"
  | sfixed32 => "sfixed32"
  | sfixed64 => "sfixed64"
  | bool => "bool"
  | string => "string"
  | bytes => "bytes"

/-- The type that a word stands for, if it is built in. -/
def ofName? : String → Option Scalar
  | "double" => some double
  | "float" => some float
  | "int32" => some int32
  | "int64" => some int64
  | "uint32" => some uint32
  | "uint64" => some uint64
  | "sint32" => some sint32
  | "sint64" => some sint64
  | "fixed32" => some fixed32
  | "fixed64" => some fixed64
  | "sfixed32" => some sfixed32
  | "sfixed64" => some sfixed64
  | "bool" => some bool
  | "string" => some string
  | "bytes" => some bytes
  | _ => none

/-- Whether a map may have keys of the type. -/
def isMapKey : Scalar → Bool
  | double | float | bytes => false
  | _ => true

theorem ofName?_name (scalar : Scalar) : ofName? scalar.name = some scalar := by
  cases scalar <;> rfl

end Scalar

/-- What a named type is known to be. -/
inductive ReferenceKind where
  | unresolved
  | message
  | enumeration
deriving DecidableEq, Repr

/-- A type given by name. A source alone does not tell messages from enums at the place of use, so
references start out unresolved. -/
structure TypeReference where
  name : TypeName
  kind : ReferenceKind
deriving DecidableEq, Repr

/-- A type other than a map. -/
inductive ValueType where
  | scalar (scalar : Scalar) (span : Span)
  | named (reference : TypeReference)
deriving DecidableEq, Repr

/-- The place of a type. -/
def ValueType.span : ValueType → Span
  | scalar _ span => span
  | named reference => reference.name.span

mutual

/-- A map type. Its keys are scalars, its values of any type. -/
structure MapType where
  key : Scalar
  keySpan : Span
  value : FieldType
  span : Span
deriving DecidableEq, Repr

/-- The type of a field or of a map's values. -/
inductive FieldType where
  | single (type : ValueType)
  | map (type : MapType)
deriving DecidableEq, Repr

end

namespace FieldType

/-- A type is a scalar, a reference, or a map of values of a type. -/
@[induction_eliminator]
theorem nested {motive : FieldType → Prop}
    (scalar : ∀ scalar span, motive (.single (.scalar scalar span)))
    (named : ∀ reference, motive (.single (.named reference)))
    (map : ∀ key keySpan value span, motive value → motive (.map ⟨key, keySpan, value, span⟩)) :
    ∀ type, motive type
  | .single (.scalar type span) => scalar type span
  | .single (.named reference) => named reference
  | .map ⟨key, keySpan, value, span⟩ =>
    map key keySpan value span (nested scalar named map value)

/-- The place of a type; that of a map ends with the closing bracket. -/
def span : FieldType → Span
  | single type => type.span
  | map type => type.span

/-- Whether the type is a map. -/
def isMap : FieldType → Bool
  | single _ => false
  | map _ => true

/-- The type itself, or that of a map's values at the bottom of all maps. -/
def valueType : FieldType → ValueType
  | single type => type
  | map ⟨_, _, value, _⟩ => value.valueType

instance : Coe FieldType ValueType := ⟨valueType⟩

/-- Replaces the reference of a named type, at the bottom of all maps. -/
def mapReference (change : TypeReference → TypeReference) : FieldType → FieldType
  | single (.scalar scalar span) => single (.scalar scalar span)
  | single (.named reference) => single (.named (change reference))
  | map ⟨key, keySpan, value, span⟩ => map ⟨key, keySpan, value.mapReference change, span⟩

/-- The reference of a named type, at the bottom of all maps. -/
def reference? (type : FieldType) : Option TypeReference :=
  match (type : ValueType) with
  | .named reference => some reference
  | .scalar _ _ => none

end FieldType

end ProtoSchema
