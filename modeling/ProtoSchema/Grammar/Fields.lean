/-
This file parses fields. A label is a word, so a field whose type has the name
of a label can only be written with a dot in front of the type. A field whose
map key has the wrong type is read to its end and then dropped.
-/

import ProtoSchema.Grammar.Options

namespace ProtoSchema

/-- Where a field is declared. -/
inductive FieldContext where
  | message
  | oneof (index : Nat)
  | extension
deriving DecidableEq, Repr

/-- The oneof that fields declared here are members of. -/
def FieldContext.oneof? : FieldContext → Option Nat
  | oneof index => some index
  | message | extension => none

namespace Parser

/-! ### Labels -/

/-- The faults of the word `required`. -/
def requiredFaults (edition : Option Edition) (context : FieldContext) (span : Span) :
    List SemanticFault :=
  if context = .extension then [⟨.requiredInExtension, span⟩]
  else if edition = some .proto3 then [⟨.requiredInProto3, span⟩]
  else []

/-- A label, if there is one, and its place. Fields that are required count as singular. -/
def fieldLabel (context : FieldContext) : Parser (FieldLabel × Option Span) := do
  match ← look with
  | some (.word "optional") => return (.optional, some (← advance))
  | some (.word "repeated") => return (.repeated, some (← advance))
  | some (.word "required") =>
    let span ← advance
    report (requiredFaults (← edition) context span)
    return (.singular, some span)
  | _ => return (.singular, none)

/-! ### Types -/

/-- Whether some tokens start a group. -/
def startsGroup : List Token → Bool
  | .word "group" :: .word _ :: .symbol .equals :: .int _ :: .symbol .leftBrace :: _ => true
  | _ => false

/-- Whether some tokens start a map type. -/
def startsMap : List Token → Bool
  | .word "map" :: .symbol .leftAngle :: _ => true
  | _ => false

/-- The scalar named at the front of some tokens. A word before a dot starts a longer name. -/
def scalarAhead? : List Token → Option Scalar
  | .word _ :: .symbol .dot :: _ => none
  | .word text :: _ => Scalar.ofName? text
  | _ => none

/-- A type that is not a scalar, not yet resolved. -/
def reference : Parser ValueType := do
  return .named ⟨← typeName, .unresolved⟩

/-- A type other than a map. -/
def valueType : Parser ValueType := do
  match ← look with
  | some (.word _) =>
    match scalarAhead? (← ahead 2) with
    | some scalar => return .scalar scalar (← advance)
    | none => reference
  | some (.symbol .dot) => reference
  | _ => unexpected "a field type"

/-- The key type that a name stands for, if maps may have it. -/
def mapKey? (name : TypeName) : Option Scalar :=
  match name with
  | ⟨none, ⟨[part]⟩⟩ => (Scalar.ofName? part.text).filter Scalar.isMapKey
  | _ => none

/-- A map type; `none` if its keys have the wrong type. -/
def mapType : Parser (Option FieldType) := do
  let start ← word "map"
  let _ ← mark .leftAngle
  let keyName ← typeName
  let _ ← mark .comma
  let value ← valueType
  let stop ← mark .rightAngle
  match mapKey? keyName with
  | some key => return some (.map ⟨key, keyName.span, .single value, start.through stop⟩)
  | none =>
    report [⟨.badMapKey, keyName.span⟩]
    return none

/-- The type of a field; `none` if it is a map with the wrong keys. -/
def fieldType : Parser (Option FieldType) := do
  if startsMap (← ahead 2) then mapType else return some (.single (← valueType))

/-! ### Numbers -/

/-- The faults of a field number. -/
def fieldNumberFaults (literal : IntLiteral) : List SemanticFault :=
  match literal.number? with
  | none => [⟨.fieldNumberOutOfRange, literal.span⟩]
  | some number =>
    if firstImplementationNumber ≤ number ∧ number ≤ lastImplementationNumber then
      [⟨.fieldNumberSetAside, literal.span⟩]
    else if 1 ≤ number ∧ number ≤ maxFieldNumber then []
    else [⟨.fieldNumberOutOfRange, literal.span⟩]

/-- The number of a field, with a fault if no field may have it. -/
def fieldNumber : Parser IntLiteral := do
  let literal ← signedInt "a positive integer"
  report (fieldNumberFaults literal)
  return literal

/-! ### Fields -/

/-- Default values belong to the older edition. -/
def defaultFaults (edition : Option Edition) (options : List OptionSetting) :
    List SemanticFault :=
  if edition = some .proto3 then
    (options.filter (·.isNamed "default")).map fun option => ⟨.defaultInProto3, option.nameSpan⟩
  else []

/-- A field; `none` if it was dropped. -/
def field (context : FieldContext) : Parser (Option Field) := do
  let comments ← leadingComments
  let start ← here
  let (label, labelSpan) ← fieldLabel context
  if startsGroup (← ahead 5) then stop .group (← here)
  else
    let type ← fieldType
    let name ← name
    let _ ← mark .equals
    let number ← fieldNumber
    let options ← optionalSettings
    report (defaultFaults (← edition) options)
    let (stop, trailing) ← terminator
    return type.map fun type =>
      { label, labelSpan, type, name, number, options, oneof := context.oneof?
        comments := { comments with trailing }
        span := start.through stop }

/-- Whether a field may start with a token. -/
def startsField : Token → Bool
  | .word _ | .symbol .dot => true
  | _ => false

end Parser

end ProtoSchema
