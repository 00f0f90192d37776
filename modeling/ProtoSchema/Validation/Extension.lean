/-
This file checks extension blocks. In the newer edition only the messages that
hold options may be extended; in both, no extension is a map.
-/

import ProtoSchema.Diagnostic.Fault
import ProtoSchema.Tree.Declaration

namespace ProtoSchema

/-- The messages that hold options. -/
def optionMessages : List String :=
  ["google.protobuf.FileOptions", "google.protobuf.MessageOptions", "google.protobuf.FieldOptions",
    "google.protobuf.OneofOptions", "google.protobuf.EnumOptions",
    "google.protobuf.EnumValueOptions", "google.protobuf.ServiceOptions",
    "google.protobuf.MethodOptions", "google.protobuf.ExtensionRangeOptions"]

/-- Whether a name, with or without a dot in front, is that of a message that holds options. -/
def TypeName.namesOptions (name : TypeName) : Bool :=
  name.path.text ∈ optionMessages

namespace Extension

/-- In the newer edition only options may be extended. -/
def extendeeFaults (edition : Option Edition) (extension : Extension) : List SemanticFault :=
  if edition = some .proto3 ∧ !extension.extendsOptions then
    [⟨.badExtendee extension.extendee.text, extension.extendee.span⟩]
  else []

/-- Everything wrong with an extension block in a file that declares the given edition. -/
def faults (edition : Option Edition) (extension : Extension) : List SemanticFault :=
  extendeeFaults edition extension ++
    extension.fields.flatMap fun field =>
      if field.type.isMap then [⟨.mapInExtension, field.type.span⟩] else []

end Extension

end ProtoSchema
