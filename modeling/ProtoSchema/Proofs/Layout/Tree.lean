/-
This file outlines schema trees. A declaration's parts are what stands before its
body, or all of it if it has none; its members are the declarations in its body,
one list for each kind. A label, a scalar type, a number or a string is a leaf, and
what was spelled as an identifier is one with its word. Resolving references
changes no outline.
-/

import ProtoSchema.Proofs.Layout.Outline
import ProtoSchema.Proofs.Resolution.Resolve

namespace ProtoSchema

open Outline (node leaf)

/-! ### Leaves -/

/-- A name is spelled by its text. -/
def Name.outline (name : Name) : Outline := node name.span (some name.text) [] []

/-- The parts of a path; the dots between them are no parts. -/
def DottedName.outline (name : DottedName) : Outline :=
  node name.span none (name.parts.map Name.outline) []

/-- A dot in front is a part of the name. -/
def TypeName.outline (name : TypeName) : Outline :=
  node name.span none (name.dot.toList.map leaf ++ [name.path.outline]) []

/-- A number is a leaf, its sign included. -/
def IntLiteral.outline (literal : IntLiteral) : Outline := leaf literal.span

/-! ### Options -/

/-- The name of an extension stands in brackets, which count to the key. -/
def OptionKey.outline : OptionKey → Outline
  | plain name => name.outline
  | extension name span => node span none [name.outline] []

mutual

/-- Lists and messages have their items as members. -/
def OptionValue.outline : OptionValue → Outline
  | .identifier name => name.outline
  | .int literal => literal.outline
  | .float _ span | .string _ span | .bool _ span => leaf span
  | .array values span => node span none [] [OptionValue.outlines values]
  | .aggregate entries span => node span none [] [OptionEntry.outlines entries]

/-- The outlines of the items in a list. -/
def OptionValue.outlines : List OptionValue → List Outline
  | [] => []
  | value :: rest => value.outline :: OptionValue.outlines rest

/-- An entry of a message is its key and its value. -/
def OptionEntry.outline : OptionEntry → Outline
  | ⟨key, value, span⟩ => node span none [key.outline, value.outline] []

/-- The outlines of the entries in a message. -/
def OptionEntry.outlines : List OptionEntry → List Outline
  | [] => []
  | entry :: rest => entry.outline :: OptionEntry.outlines rest

end

/-- The name of an option, with its keys. -/
def OptionSetting.nameOutline (setting : OptionSetting) : Outline :=
  node setting.nameSpan none (setting.name.map OptionKey.outline) []

/-- A setting reaches from its name to its value. -/
def OptionSetting.outline (setting : OptionSetting) : Outline :=
  node (setting.nameSpan.through setting.value.span) none
    [setting.nameOutline, setting.value.outline] []

/-- The word and the semicolon around a setting count to the statement. -/
def OptionStatement.outline (option : OptionStatement) : Outline :=
  node option.span none [option.setting.outline] []

/-! ### Fields -/

/-- A scalar type is a leaf, another type has the outline of its name. -/
def ValueType.outline : ValueType → Outline
  | scalar _ span => leaf span
  | named reference => reference.name.outline

/-- The key of a map is a leaf, since it is always a scalar. -/
def FieldType.outline : FieldType → Outline
  | single type => type.outline
  | map ⟨_, keySpan, value, span⟩ => node span none [leaf keySpan, value.outline] []

/-- The label comes first, if there is one, and the settings last. -/
def Field.outline (field : Field) : Outline :=
  node field.span none (field.labelSpan.toList.map leaf ++
    [field.type.outline, field.name.outline, field.number.outline] ++
      field.options.map OptionSetting.outline) []

/-! ### Declarations -/

/-- What a range has behind its first bound, if it has anything. -/
def RangeEnd.outlines : RangeEnd → List Outline
  | absent => []
  | int literal => [literal.outline]
  | max span => [leaf span]

/-- A range goes from one bound to the other. -/
def Range.outline (range : Range) : Outline :=
  node range.span none (range.first.outline :: range.last.outlines) []

/-- Names in quotes are no identifiers of the source. -/
def ReservedItems.outlines : ReservedItems → List Outline
  | ranges items => items.map Range.outline
  | names items => items.map fun name => leaf name.span

/-- What is reserved are the parts of the statement. -/
def Reserved.outline (reserved : Reserved) : Outline :=
  node reserved.span none reserved.items.outlines []

/-- The ranges and the settings behind them are the parts. -/
def ExtensionRanges.outline (extensions : ExtensionRanges) : Outline :=
  node extensions.span none
    (extensions.ranges.map Range.outline ++ extensions.options.map OptionSetting.outline) []

/-- The name, the number and the settings of a value. -/
def EnumValue.outline (value : EnumValue) : Outline :=
  node value.span none ([value.name.outline, value.number.outline] ++
    value.options.map OptionSetting.outline) []

/-- An enum has three kinds of members. -/
def Enumeration.outline (enumeration : Enumeration) : Outline :=
  node enumeration.span none [enumeration.name.outline]
    [enumeration.values.map EnumValue.outline, enumeration.options.map OptionStatement.outline,
      enumeration.reserved.map Reserved.outline]

/-- The options of a method are its members, since they stand in its body. -/
def Method.outline (method : Method) : Outline :=
  node method.span none [method.name.outline, method.input.outline, method.output.outline]
    [method.options.map OptionStatement.outline]

/-- A service has two kinds of members. -/
def Service.outline (service : Service) : Outline :=
  node service.span none [service.name.outline]
    [service.methods.map Method.outline, service.options.map OptionStatement.outline]

/-- A oneof has two kinds of members. -/
def Oneof.outline (oneof : Oneof) : Outline :=
  node oneof.span none [oneof.name.outline]
    [oneof.fields.map Field.outline, oneof.options.map OptionStatement.outline]

/-- What is extended is the only part of a block outside its body. -/
def Extension.outline (extension : Extension) : Outline :=
  node extension.span none [extension.extendee.outline]
    [extension.fields.map Field.outline, extension.options.map OptionStatement.outline]

mutual

/-- A message has eight kinds of members, other messages among them. -/
def Message.outline : Message → Outline
  | ⟨name, fields, oneofs, messages, enums, extensions, extensionRanges, options, reserved, _,
      span⟩ =>
    node span none [name.outline]
      [fields.map Field.outline, oneofs.map Oneof.outline, Message.outlines messages,
        enums.map Enumeration.outline, extensions.map Extension.outline,
        extensionRanges.map ExtensionRanges.outline, options.map OptionStatement.outline,
        reserved.map Reserved.outline]

/-- The outlines of messages. -/
def Message.outlines : List Message → List Outline
  | [] => []
  | message :: rest => message.outline :: Message.outlines rest

end

/-- The path in quotes is a leaf. -/
def Import.outline (entry : Import) : Outline :=
  node entry.span none [leaf entry.path.span] []

/-- The name of the package is its only part. -/
def Package.outline (package : Package) : Outline :=
  node package.span none [package.name.outline] []

/-- The declarations of a file, kind by kind. -/
def File.outlines (file : File) : List (List Outline) :=
  [file.package.toList.map Package.outline, file.imports.map Import.outline,
    file.options.map OptionStatement.outline, file.messages.map Message.outline,
    file.enums.map Enumeration.outline, file.services.map Service.outline,
    file.extensions.map Extension.outline]

/-! ### Lists -/

/-- The functions on lists are there for the recursion alone. -/
theorem OptionValue.outlines_eq (values : List OptionValue) :
    OptionValue.outlines values = values.map OptionValue.outline := by
  induction values with
  | nil => rfl
  | cons value rest inductionHypothesis => rw [outlines, inductionHypothesis, List.map_cons]

theorem OptionEntry.outlines_eq (entries : List OptionEntry) :
    OptionEntry.outlines entries = entries.map OptionEntry.outline := by
  induction entries with
  | nil => rfl
  | cons entry rest inductionHypothesis => rw [outlines, inductionHypothesis, List.map_cons]

theorem Message.outlines_eq (messages : List Message) :
    Message.outlines messages = messages.map Message.outline := by
  induction messages with
  | nil => rfl
  | cons message rest inductionHypothesis => rw [outlines, inductionHypothesis, List.map_cons]

/-- The members of a message, kind by kind. -/
def Message.members (message : Message) : List (List Outline) :=
  [message.fields.map Field.outline, message.oneofs.map Oneof.outline,
    message.messages.map Message.outline, message.enums.map Enumeration.outline,
    message.extensions.map Extension.outline,
    message.extensionRanges.map ExtensionRanges.outline,
    message.options.map OptionStatement.outline, message.reserved.map Reserved.outline]

/-- The outline of a message by its members, as those of the other blocks. -/
theorem Message.outline_eq (message : Message) :
    message.outline = node message.span none [message.name.outline] message.members := by
  cases message
  rw [outline, outlines_eq]
  rfl

/-! ### Spans -/

/-- The outline of a node has the span of the node, here and in what follows. -/
@[simp, grind =]
theorem Name.span_outline (name : Name) : name.outline.span = name.span := rfl

@[simp, grind =]
theorem OptionKey.span_outline (key : OptionKey) : key.outline.span = key.span := by
  cases key <;> rfl

@[simp, grind =]
theorem OptionValue.span_outline (value : OptionValue) :
    value.outline.span = value.span := by
  cases value <;> simp [OptionValue.outline, OptionValue.span, IntLiteral.outline, leaf,
    Outline.span, Name.outline]

@[simp, grind =]
theorem ValueType.span_outline (type : ValueType) : type.outline.span = type.span := by
  cases type <;> rfl

@[simp, grind =]
theorem FieldType.span_outline (type : FieldType) : type.outline.span = type.span := by
  induction type with
  | scalar | named | map => rfl

@[simp, grind =]
theorem Field.span_outline (field : Field) : field.outline.span = field.span := rfl

@[simp, grind =]
theorem Oneof.span_outline (oneof : Oneof) : oneof.outline.span = oneof.span := rfl

@[simp, grind =]
theorem Reserved.span_outline (reserved : Reserved) :
    reserved.outline.span = reserved.span := rfl

@[simp, grind =]
theorem ExtensionRanges.span_outline (extensions : ExtensionRanges) :
    extensions.outline.span = extensions.span := rfl

@[simp, grind =]
theorem EnumValue.span_outline (value : EnumValue) : value.outline.span = value.span := rfl

@[simp, grind =]
theorem Method.span_outline (method : Method) : method.outline.span = method.span := rfl

@[simp, grind =]
theorem Import.span_outline (entry : Import) : entry.outline.span = entry.span := rfl

@[simp, grind =]
theorem Package.span_outline (package : Package) :
    package.outline.span = package.span := rfl

@[simp, grind =]
theorem Message.span_outline (message : Message) :
    message.outline.span = message.span := by
  rw [outline_eq]
  rfl

/-! ### Resolving -/

namespace SymbolTable

variable (table : SymbolTable) (scopes : List String)

/-- Only the kind of a reference is changed, which no outline has. -/
theorem outline_mapReference (type : FieldType) :
    (type.mapReference (table.resolveReference scopes)).outline = type.outline := by
  have value (reference : TypeReference) :
      (ValueType.named (table.resolveReference scopes reference)).outline =
        (ValueType.named reference).outline := by
    rw [ValueType.outline, ValueType.outline, name_resolveReference]
  induction type with
  | scalar => rfl
  | named reference => exact value reference
  | map key keySpan value span inductionHypothesis =>
    rw [FieldType.mapReference, FieldType.outline, FieldType.outline, inductionHypothesis]

theorem outline_resolveField (field : Field) :
    (table.resolveField scopes field).outline = field.outline := by
  rw [Field.outline, Field.outline, resolveField, outline_mapReference]

theorem outline_resolveOneof (oneof : Oneof) :
    (table.resolveOneof scopes oneof).outline = oneof.outline := by
  simp [Oneof.outline, resolveOneof, Function.comp_def, outline_resolveField]

theorem outline_resolveExtension (extension : Extension) :
    (table.resolveExtension scopes extension).outline = extension.outline := by
  simp [Extension.outline, resolveExtension, Function.comp_def, outline_resolveField]

/-- Resolving goes through the messages inside as well, and changes no outline there. -/
theorem outline_resolveMessage (message : Message) :
    (table.resolveMessage scopes message).outline = message.outline := by
  induction message using Message.induction generalizing scopes with
  | step message inductionHypothesis =>
    have inner : message.messages.map (fun inner =>
        (table.resolveMessage (enter scopes message) inner).outline) =
        message.messages.map Message.outline :=
      List.map_congr_left fun inner member => inductionHypothesis inner member _
    rw [Message.outline_eq, Message.outline_eq, resolveMessage_eq]
    simp [Message.members, Function.comp_def, outline_resolveField, outline_resolveOneof,
      outline_resolveExtension, inner]

end SymbolTable

/-- A resolved file is laid out as the file is. -/
theorem File.outlines_resolve (file : File) : file.resolve.outlines = file.outlines := by
  simp only [outlines, resolve, SymbolTable.resolveMessages_eq, List.map_map, Function.comp_def,
    SymbolTable.outline_resolveMessage, SymbolTable.outline_resolveExtension]

end ProtoSchema
