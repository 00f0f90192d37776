/-
This file checks messages and their oneofs. Two members of one oneof that share
a name or a number are reported with the oneof; all other pairs of fields are
reported with the message, in the order of the source.
-/

import ProtoSchema.Validation.Clashes
import ProtoSchema.Validation.ReservedNumbers

namespace ProtoSchema

/-- A field that has a number, with that number. -/
structure NumberedField where
  field : Field
  number : Int

namespace NumberedField

/-- A field with its number, if the number fits. -/
def ofField? (field : Field) : Option NumberedField :=
  field.number.number?.map fun number => ⟨field, number⟩

/-- A field whose number another field has taken. -/
def repeatedNumber (first second : NumberedField) : SemanticFault :=
  ⟨.repeatedFieldNumber second.number first.field.number.span, second.field.number.span⟩

end NumberedField

/-- Whether two fields are members of one oneof. -/
def Field.sharesOneof (first second : Field) : Bool :=
  first.oneof.isSome && first.oneof = second.oneof

/-! ### Oneofs -/

namespace Oneof

/-- Members of a oneof have no label and are no maps. -/
def memberFaults (field : Field) : List SemanticFault :=
  (field.labelSpan.toList.map fun span => ⟨.labelInOneof, span⟩) ++
    if field.type.isMap then [⟨.mapInOneof, field.type.span⟩] else []

/-- A oneof has a field, and its fields are neither maps nor labelled, with names and numbers of
their own. -/
def faults (oneof : Oneof) : List SemanticFault :=
  (if oneof.fields.isEmpty then [⟨.emptyOneof, oneof.name.span⟩] else []) ++
    oneof.fields.flatMap memberFaults ++
    repeatedNames (oneof.fields.map (·.name)) ++
    ((clashes NumberedField.number (oneof.fields.filterMap NumberedField.ofField?)).map
      fun (first, second) => first.repeatedNumber second)

end Oneof

/-! ### Messages -/

namespace Message

/-- All fields in the order of the source. -/
def fieldsInOrder (message : Message) : List Field :=
  message.allFields.mergeSort fun left right => left.span.start ≤ right.span.start

/-- Nested messages and enums have names of their own. -/
def nestedNameFaults (message : Message) : List SemanticFault :=
  repeatedNames (message.messages.map (·.name) ++ message.enums.map (·.name))

/-- Fields have names of their own. -/
def fieldNameFaults (message : Message) : List SemanticFault :=
  ((clashes (·.name.text) message.fieldsInOrder).filter
    fun (first, second) => !first.sharesOneof second).map
      fun (first, second) => repeatedName first.name second.name

/-- Fields have numbers of their own. -/
def fieldNumberFaults (message : Message) : List SemanticFault :=
  ((clashes NumberedField.number (message.fieldsInOrder.filterMap NumberedField.ofField?)).filter
    fun (first, second) => !first.field.sharesOneof second.field).map
      fun (first, second) => first.repeatedNumber second

/-- Map fields have no label. -/
def mapLabelFaults (message : Message) : List SemanticFault :=
  message.fieldsInOrder.flatMap fun field =>
    if field.type.isMap && field.oneof.isNone then
      field.labelSpan.toList.map fun span => ⟨.labelOnMap, span⟩
    else []

/-- No oneof has the name of a field. -/
def oneofNameFaults (message : Message) : List SemanticFault :=
  message.oneofs.flatMap fun oneof =>
    ((message.fieldsInOrder.find? fun field => field.name.text = oneof.name.text).map
      fun field => repeatedName field.name oneof.name).toList

/-- The ranges of a message are well formed, those left to extensions included. -/
def rangeFaults (message : Message) : List SemanticFault :=
  DeclaredRange.faults .field (message.reserved.flatMap Reserved.ranges) ++
    DeclaredRange.faults .field (message.extensionRanges.flatMap ExtensionRanges.declared)

/-- No field uses a reserved number or name. -/
def reservedFaults (message : Message) : List SemanticFault :=
  message.fieldsInOrder.flatMap fun field =>
    reservationFaults message.reserved .field field.number field.name

/-- Everything wrong with a message itself, its oneofs and nested declarations apart. -/
def faults (message : Message) : List SemanticFault :=
  typeNameFaults .message message.name ++ message.nestedNameFaults ++ message.fieldNameFaults ++
    message.fieldNumberFaults ++ message.mapLabelFaults ++ message.oneofNameFaults ++
    message.rangeFaults ++ message.reservedFaults

end Message

end ProtoSchema
