/-
This file lists the references to types in a file: for each field whose type,
or whose map's value type, is given by name, where the field is, the name, and
what it is known to be.
-/

import ProtoSchema.Tree.Declaration

namespace ProtoSchema

/-- A field whose type is a reference, or a map to one, and where it is declared. -/
structure FieldReference where
  /-- The names of the messages around the field, then the extension block if it is in one. -/
  scope : List String
  field : String
  type : TypeReference
deriving DecidableEq, Repr

namespace FieldReference

/-- The scope and the field, each after a slash. -/
def place (reference : FieldReference) : String :=
  String.join ((reference.scope ++ [reference.field]).map ("/" ++ ·))

/-- The references in the types of fields. -/
def ofFields (scope : List String) (fields : List Field) : List FieldReference :=
  fields.filterMap fun field =>
    field.type.reference?.map fun type => ⟨scope, field.name.text, type⟩

/-- The references in the fields of extension blocks, whose names count as scopes. -/
def ofExtensions (scope : List String) (extensions : List Extension) : List FieldReference :=
  extensions.flatMap fun extension =>
    ofFields (scope ++ ["extend " ++ extension.extendee.text]) extension.fields

mutual

/-- The fields of a message, those of the messages in it, then those of its extension blocks. -/
def ofMessage (scope : List String) : Message → List FieldReference
  | ⟨name, fields, oneofs, messages, _, extensions, _, _, _, _, _⟩ =>
    let inner := scope ++ [name.text]
    ofFields inner (fields ++ oneofs.flatMap Oneof.fields) ++ ofMessages inner messages ++
      ofExtensions inner extensions

/-- The references in messages, one message after the other. -/
def ofMessages (scope : List String) : List Message → List FieldReference
  | [] => []
  | message :: rest => ofMessage scope message ++ ofMessages scope rest

end

end FieldReference

/-- Every reference in a file, those in messages first. -/
def File.references (file : File) : List FieldReference :=
  FieldReference.ofMessages [] file.messages ++ FieldReference.ofExtensions [] file.extensions

/-! ### Extension blocks and their scopes -/

mutual

/-- The extension blocks of a message, then those of the messages in it. -/
def Message.allExtensions : Message → List Extension
  | ⟨_, _, _, messages, _, extensions, _, _, _, _, _⟩ => extensions ++ Message.extensionsOf messages

/-- The extension blocks in messages, at every depth. -/
def Message.extensionsOf : List Message → List Extension
  | [] => []
  | message :: rest => message.allExtensions ++ Message.extensionsOf rest

end

/-- Every extension block in a file, those in messages first. -/
def File.allExtensions (file : File) : List Extension :=
  Message.extensionsOf file.messages ++ file.extensions

end ProtoSchema
