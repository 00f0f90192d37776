/-
This file decides for each type given by name whether it is a message or an
enum. What has been decided before stays as it is, and nothing else in the tree
changes.
-/

import ProtoSchema.Resolution.SymbolTable

namespace ProtoSchema

namespace SymbolTable

/-- A reference that is not yet decided is looked up from the scopes around it. -/
def resolveReference (table : SymbolTable) (scopes : List String) (reference : TypeReference) :
    TypeReference :=
  if reference.kind = .unresolved then
    { reference with kind := table.classify scopes reference.name }
  else reference

/-- All references in the type of the field are resolved, those inside maps as well. -/
def resolveField (table : SymbolTable) (scopes : List String) (field : Field) : Field :=
  { field with type := field.type.mapReference (table.resolveReference scopes) }

/-- Fields of a oneof are resolved in the scopes of their message. -/
def resolveOneof (table : SymbolTable) (scopes : List String) (oneof : Oneof) : Oneof :=
  { oneof with fields := oneof.fields.map (table.resolveField scopes) }

/-- The scopes of an extension block are those of the place where it stands. -/
def resolveExtension (table : SymbolTable) (scopes : List String) (extension : Extension) :
    Extension :=
  { extension with fields := extension.fields.map (table.resolveField scopes) }

mutual

/-- A message inside the messages of the given names, the innermost first. -/
def resolveMessage (table : SymbolTable) (scopes : List String) : Message → Message
  | ⟨name, fields, oneofs, messages, enums, extensions, extensionRanges, options, reserved,
      comments, span⟩ =>
    let inner := qualify (scopes.headD "") name.text :: scopes
    ⟨name, fields.map (table.resolveField inner), oneofs.map (table.resolveOneof inner),
      resolveMessages table inner messages, enums, extensions.map (table.resolveExtension inner),
      extensionRanges, options, reserved, comments, span⟩

/-- The messages inside another, in its scopes. -/
def resolveMessages (table : SymbolTable) (scopes : List String) : List Message → List Message
  | [] => []
  | message :: rest =>
    resolveMessage table scopes message :: resolveMessages table scopes rest

end

end SymbolTable

/-- The file with every reference that was unresolved decided. -/
def File.resolve (file : File) : File :=
  let table := SymbolTable.ofFile file
  { file with
    messages := table.resolveMessages [] file.messages
    extensions := file.extensions.map (table.resolveExtension []) }

end ProtoSchema
