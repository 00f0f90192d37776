/-
This file shows what resolving a file leaves as it is. References keep their
names, so the file is printed as before and defines what it did before; and
whether a reference is to an enum does not depend on what erasing takes away, so
erasing and resolving may change places.
-/

import ProtoSchema.Proofs.Tree.Printing
import ProtoSchema.Resolution.Resolve

namespace ProtoSchema

namespace SymbolTable

/-! ### Lists inside trees -/

/-- The functions on lists are there for the recursion alone, here and in what follows. -/
theorem resolveMessages_eq (table : SymbolTable) (scopes : List String) (messages : List Message) :
    table.resolveMessages scopes messages = messages.map (table.resolveMessage scopes) := by
  induction messages with
  | nil => rfl
  | cons message rest inductionHypothesis =>
    rw [resolveMessages, inductionHypothesis, List.map_cons]

/-- The name of a message inside the messages of the given names, in front of those names. -/
def enter (scopes : List String) (message : Message) : List String :=
  qualify (scopes.headD "") message.name.text :: scopes

/-- The parts of a resolved message. -/
theorem resolveMessage_eq (table : SymbolTable) (scopes : List String) (message : Message) :
    table.resolveMessage scopes message =
      { message with
        fields := message.fields.map (table.resolveField (enter scopes message))
        oneofs := message.oneofs.map (table.resolveOneof (enter scopes message))
        messages := message.messages.map (table.resolveMessage (enter scopes message))
        extensions := message.extensions.map (table.resolveExtension (enter scopes message)) } := by
  cases message
  rw [resolveMessage, resolveMessages_eq]
  rfl

theorem messagesIn_eq (scope : String) (messages : List Message) :
    messagesIn scope messages = messages.flatMap (messagesOf scope) := by
  induction messages with
  | nil => rfl
  | cons message rest inductionHypothesis =>
    rw [messagesIn, inductionHypothesis, List.flatMap_cons]

/-- A message comes before those inside it. -/
theorem messagesOf_eq (scope : String) (message : Message) :
    messagesOf scope message =
      ⟨message.name.text, qualify scope message.name.text⟩ ::
        message.messages.flatMap (messagesOf (qualify scope message.name.text)) := by
  cases message
  rw [messagesOf, messagesIn_eq]

theorem enumsIn_eq (scope : String) (messages : List Message) :
    enumsIn scope messages = messages.flatMap (enumsOf scope) := by
  induction messages with
  | nil => rfl
  | cons message rest inductionHypothesis =>
    rw [enumsIn, inductionHypothesis, List.flatMap_cons]

/-- The enums inside of messages come before those beside them. -/
theorem enumsOf_eq (scope : String) (message : Message) :
    enumsOf scope message =
      message.messages.flatMap (enumsOf (qualify scope message.name.text)) ++
        enumNames (qualify scope message.name.text) message.enums := by
  cases message
  rw [enumsOf, enumsIn_eq]

end SymbolTable

/-! ### Names and what is printed -/

/-- Changing references makes no map of a type, and no type of a map. -/
theorem FieldType.isMap_mapReference (change : TypeReference → TypeReference) (type : FieldType) :
    (type.mapReference change).isMap = type.isMap := by
  induction type with
  | scalar | named | map => rfl

namespace SymbolTable

variable (table : SymbolTable) (scopes : List String)

/-- A reference keeps its name whatever it is decided to. -/
theorem name_resolveReference (reference : TypeReference) :
    (table.resolveReference scopes reference).name = reference.name := by
  rw [resolveReference]
  split <;> rfl

/-- Resolving is not seen in the text of a type. -/
theorem text_mapReference (type : FieldType) :
    (type.mapReference (table.resolveReference scopes)).text = type.text := by
  have value (reference : TypeReference) :
      (ValueType.named (table.resolveReference scopes reference)).text =
        (ValueType.named reference).text := by
    rw [ValueType.text, ValueType.text, name_resolveReference]
  induction type with
  | scalar => rfl
  | named reference => exact value reference
  | map key keySpan value span inductionHypothesis =>
    rw [FieldType.mapReference, FieldType.text, FieldType.text, inductionHypothesis]

/-- So it is not seen in what is printed of a field, and of what fields are in. -/
theorem line_resolveField (depth : Nat) (field : Field) :
    (table.resolveField scopes field).line depth = field.line depth := by
  rw [Field.line, Field.line, resolveField, text_mapReference]

theorem lines_resolveOneof (depth : Nat) (oneof : Oneof) :
    (table.resolveOneof scopes oneof).lines depth = oneof.lines depth := by
  simp [Oneof.lines, resolveOneof, Function.comp_def, line_resolveField]

theorem lines_resolveExtension (depth : Nat) (extension : Extension) :
    (table.resolveExtension scopes extension).lines depth = extension.lines depth := by
  simp [Extension.lines, resolveExtension, Function.comp_def, line_resolveField]

/-- Resolving is not seen in the text of a message, at any depth. -/
theorem lines_resolveMessage (message : Message) (depth : Nat) :
    (table.resolveMessage scopes message).lines depth = message.lines depth := by
  induction message using Message.induction generalizing scopes depth with
  | step message inductionHypothesis =>
    have inner : message.messages.flatMap (fun inner =>
        (table.resolveMessage (enter scopes message) inner).lines (depth + 1)) =
        message.messages.flatMap (Message.lines (depth + 1)) :=
      List.flatMap_congr fun inner member => inductionHypothesis inner member _ _
    rw [Message.lines_eq, Message.lines_eq, resolveMessage_eq]
    simp [Function.comp_def, List.flatMap_map, line_resolveField, lines_resolveOneof,
      lines_resolveExtension, inner]

/-- Resolving defines nothing. -/
theorem ofMessage_resolveMessage (message : Message) (scope : String) (nested : Bool) :
    Definition.ofMessage scope nested (table.resolveMessage scopes message) =
      Definition.ofMessage scope nested message := by
  induction message using Message.induction generalizing scopes scope nested with
  | step message inductionHypothesis =>
    have inner (scope : String) : message.messages.flatMap (fun inner =>
        Definition.ofMessage scope true (table.resolveMessage (enter scopes message) inner)) =
        message.messages.flatMap (Definition.ofMessage scope true) :=
      List.flatMap_congr fun inner member => inductionHypothesis inner member _ _ _
    rw [Definition.ofMessage_eq, Definition.ofMessage_eq, resolveMessage_eq]
    simp only [List.flatMap_map, inner]

end SymbolTable

namespace File

/-- A resolved file is printed as the file is. -/
theorem render_resolve (file : File) : file.resolve.render = file.render := by
  have parts : file.resolve.parts = file.parts := by
    simp only [File.parts, resolve, SymbolTable.resolveMessages_eq, List.map_map,
      Function.comp_def, SymbolTable.lines_resolveMessage, SymbolTable.lines_resolveExtension]
  rw [render, render, lines, lines, parts]

/-- A resolved file defines what the file does. -/
theorem definitions_resolve (file : File) : file.resolve.definitions = file.definitions := by
  simp only [definitions, resolve, Definition.ofMessages_eq, SymbolTable.resolveMessages_eq,
    List.flatMap_map, SymbolTable.ofMessage_resolveMessage]
  rfl

end File

/-! ### Erasing -/

namespace SymbolTable

/-- Names of messages and enums are told without places. -/
theorem messagesOf_erased (message : Message) (scope : String) :
    messagesOf scope message.erased = messagesOf scope message := by
  induction message using Message.induction generalizing scope with
  | step message inductionHypothesis =>
    have inner (scope : String) : message.messages.flatMap (fun inner =>
        messagesOf scope inner.erased) = message.messages.flatMap (messagesOf scope) :=
      List.flatMap_congr fun inner member => inductionHypothesis inner member _
    rw [messagesOf_eq, messagesOf_eq, Message.erased_eq]
    simp only [List.flatMap_map, inner, Name.text_erased]

theorem enumNames_erased (scope : String) (enums : List Enumeration) :
    enumNames scope (enums.map Enumeration.erased) = enumNames scope enums := by
  rw [enumNames, enumNames, List.map_map]
  rfl

theorem enumsOf_erased (message : Message) (scope : String) :
    enumsOf scope message.erased = enumsOf scope message := by
  induction message using Message.induction generalizing scope with
  | step message inductionHypothesis =>
    have inner (scope : String) : message.messages.flatMap (fun inner =>
        enumsOf scope inner.erased) = message.messages.flatMap (enumsOf scope) :=
      List.flatMap_congr fun inner member => inductionHypothesis inner member _
    rw [enumsOf_eq, enumsOf_eq, Message.erased_eq]
    simp only [List.flatMap_map, inner, enumNames_erased, Name.text_erased]

/-- The table of a file does not depend on its layout. -/
theorem ofFile_erased (file : File) : ofFile file.erased = ofFile file := by
  have package : file.erased.packageName = file.packageName := by
    rw [File.packageName, File.packageName, File.erased]
    cases file.package with
    | none => rfl
    | some package => exact package.name.text_erased
  rw [ofFile, ofFile, package]
  simp only [messagesIn_eq, enumsIn_eq, File.erased, List.flatMap_map, messagesOf_erased,
    enumsOf_erased, enumNames_erased]

variable (table : SymbolTable) (scopes : List String)

/-- Erasing a reference first or last is the same. -/
theorem resolveReference_erased (reference : TypeReference) :
    table.resolveReference scopes reference.erased =
      (table.resolveReference scopes reference).erased := by
  have same : table.classify scopes reference.name.erased =
      table.classify scopes reference.name := by
    have qualified : reference.name.erased.isQualified = reference.name.isQualified := by
      simp [TypeName.isQualified, TypeName.erased, DottedName.erased]
    rw [classify, classify, qualified, TypeName.erased, DottedName.text_erased]
  rw [resolveReference, resolveReference, apply_ite TypeReference.erased]
  simp only [TypeReference.erased, same]

theorem resolveField_erased (field : Field) :
    table.resolveField scopes field.erased = (table.resolveField scopes field).erased := by
  have type : field.type.erased.mapReference (table.resolveReference scopes) =
      (field.type.mapReference (table.resolveReference scopes)).erased := by
    induction field.type with
    | scalar => rfl
    | named reference =>
      exact congrArg (fun reference => FieldType.single (.named reference))
        (table.resolveReference_erased scopes reference)
    | map key keySpan value span inductionHypothesis =>
      rw [FieldType.erased, FieldType.mapReference, inductionHypothesis, FieldType.mapReference,
        FieldType.erased]
  rw [resolveField, resolveField, Field.erased, Field.erased]
  simp only [type]

theorem resolveOneof_erased (oneof : Oneof) :
    table.resolveOneof scopes oneof.erased = (table.resolveOneof scopes oneof).erased := by
  simp [resolveOneof, Oneof.erased, Function.comp_def, resolveField_erased]

theorem resolveExtension_erased (extension : Extension) :
    table.resolveExtension scopes extension.erased =
      (table.resolveExtension scopes extension).erased := by
  simp [resolveExtension, Extension.erased, Function.comp_def, resolveField_erased]

/-- A message may be erased before it is resolved. -/
theorem resolveMessage_erased (message : Message) :
    table.resolveMessage scopes message.erased = (table.resolveMessage scopes message).erased := by
  induction message using Message.induction generalizing scopes with
  | step message inductionHypothesis =>
    have scope : enter scopes message.erased = enter scopes message := by
      rw [Message.erased_eq]
      rfl
    have inner : message.messages.map (fun inner =>
        table.resolveMessage (enter scopes message) inner.erased) =
        message.messages.map fun inner =>
          (table.resolveMessage (enter scopes message) inner).erased :=
      List.map_congr_left fun inner member => inductionHypothesis inner member _
    rw [resolveMessage_eq, resolveMessage_eq, scope, Message.erased_eq, Message.erased_eq]
    simp [Function.comp_def, resolveField_erased, resolveOneof_erased, resolveExtension_erased,
      inner]

end SymbolTable

/-- Erasing and resolving may change places. -/
theorem File.resolve_erased (file : File) : file.erased.resolve = file.resolve.erased := by
  rw [resolve, resolve, SymbolTable.ofFile_erased]
  simp only [erased, SymbolTable.resolveMessages_eq, List.map_map, Function.comp_def,
    SymbolTable.resolveMessage_erased, SymbolTable.resolveExtension_erased]

end ProtoSchema
