/-
This file collects what is remarked on the declarations of a schema: the comments
of each declaration that can have any, at every depth, with its span. Resolving
references changes no remark.
-/

import ProtoSchema.Proofs.Resolution.Resolve

namespace ProtoSchema

/-- The comments of a declaration, and where it stands. -/
structure Remark where
  comments : Comments
  span : Span

/-! ### Declarations without others in them -/

/-- What is remarked on an option that is a statement of its own. -/
def OptionStatement.remark (option : OptionStatement) : Remark := ⟨option.comments, option.span⟩

/-- What is remarked on a field, in a message or elsewhere. -/
def Field.remark (field : Field) : Remark := ⟨field.comments, field.span⟩

/-- What is remarked on a statement that reserves. -/
def Reserved.remark (reserved : Reserved) : Remark := ⟨reserved.comments, reserved.span⟩

/-- What is remarked on ranges left to extensions. -/
def ExtensionRanges.remark (extensions : ExtensionRanges) : Remark :=
  ⟨extensions.comments, extensions.span⟩

/-- What is remarked on a value of an enum. -/
def EnumValue.remark (value : EnumValue) : Remark := ⟨value.comments, value.span⟩

/-- What is remarked on an import. -/
def Import.remark (entry : Import) : Remark := ⟨entry.comments, entry.span⟩

/-- What is remarked on a package. -/
def Package.remark (package : Package) : Remark := ⟨package.comments, package.span⟩

/-! ### Blocks -/

/-- The remarks on the members of an enum, kind by kind. -/
def Enumeration.memberRemarks (enumeration : Enumeration) : List (List Remark) :=
  [enumeration.values.map EnumValue.remark, enumeration.options.map OptionStatement.remark,
    enumeration.reserved.map Reserved.remark]

/-- The remark on an enum and those on its members. -/
def Enumeration.remarks (enumeration : Enumeration) : List Remark :=
  ⟨enumeration.comments, enumeration.span⟩ :: enumeration.memberRemarks.flatten

/-- The remark on a method and those on the options in its body. -/
def Method.remarks (method : Method) : List Remark :=
  ⟨method.comments, method.span⟩ :: method.options.map OptionStatement.remark

/-- The remarks on the members of a service, kind by kind. -/
def Service.memberRemarks (service : Service) : List (List Remark) :=
  [service.methods.flatMap Method.remarks, service.options.map OptionStatement.remark]

/-- The remark on a service and those on its members. -/
def Service.remarks (service : Service) : List Remark :=
  ⟨service.comments, service.span⟩ :: service.memberRemarks.flatten

/-- The remarks on the members of a oneof, kind by kind. -/
def Oneof.memberRemarks (oneof : Oneof) : List (List Remark) :=
  [oneof.fields.map Field.remark, oneof.options.map OptionStatement.remark]

/-- The remark on a oneof and those on its members. -/
def Oneof.remarks (oneof : Oneof) : List Remark :=
  ⟨oneof.comments, oneof.span⟩ :: oneof.memberRemarks.flatten

/-- The remarks on the members of an extension block, kind by kind. -/
def Extension.memberRemarks (extension : Extension) : List (List Remark) :=
  [extension.fields.map Field.remark, extension.options.map OptionStatement.remark]

/-- The remark on an extension block and those on its members. -/
def Extension.remarks (extension : Extension) : List Remark :=
  ⟨extension.comments, extension.span⟩ :: extension.memberRemarks.flatten

mutual

/-- The remarks on a message and on what is declared in it. -/
def Message.remarks : Message → List Remark
  | ⟨_, fields, oneofs, messages, enums, extensions, extensionRanges, options, reserved, comments,
      span⟩ =>
    ⟨comments, span⟩ :: [fields.map Field.remark, oneofs.flatMap Oneof.remarks,
      Message.remarksAll messages, enums.flatMap Enumeration.remarks,
      extensions.flatMap Extension.remarks, extensionRanges.map ExtensionRanges.remark,
      options.map OptionStatement.remark, reserved.map Reserved.remark].flatten

/-- The remarks on messages one after the other. -/
def Message.remarksAll : List Message → List Remark
  | [] => []
  | message :: rest => message.remarks ++ Message.remarksAll rest

end

namespace Message

/-- The function on lists is there for the recursion alone. -/
theorem remarksAll_eq (messages : List Message) :
    remarksAll messages = messages.flatMap remarks := by
  induction messages with
  | nil => rfl
  | cons message rest inductionHypothesis =>
    rw [remarksAll, inductionHypothesis, List.flatMap_cons]

/-- The remarks on the members of a message, kind by kind. -/
def memberRemarks (message : Message) : List (List Remark) :=
  [message.fields.map Field.remark, message.oneofs.flatMap Oneof.remarks,
    message.messages.flatMap remarks, message.enums.flatMap Enumeration.remarks,
    message.extensions.flatMap Extension.remarks,
    message.extensionRanges.map ExtensionRanges.remark,
    message.options.map OptionStatement.remark, message.reserved.map Reserved.remark]

/-- The remark on a message comes first, as with every other block. -/
theorem remarks_eq (message : Message) :
    message.remarks = ⟨message.comments, message.span⟩ :: message.memberRemarks.flatten := by
  cases message
  rw [remarks, remarksAll_eq]
  rfl

end Message

/-- The remarks on the declarations of a file, kind by kind. -/
def File.memberRemarks (file : File) : List (List Remark) :=
  [file.package.toList.map Package.remark, file.imports.map Import.remark,
    file.options.map OptionStatement.remark, file.messages.flatMap Message.remarks,
    file.enums.flatMap Enumeration.remarks, file.services.flatMap Service.remarks,
    file.extensions.flatMap Extension.remarks]

/-- The remarks on everything declared in a file. -/
def File.remarks (file : File) : List Remark := file.memberRemarks.flatten

/-! ### Resolving -/

namespace SymbolTable

variable (table : SymbolTable) (scopes : List String)

/-- The kinds of references are no part of what is remarked. -/
theorem remarks_resolveOneof (oneof : Oneof) :
    (table.resolveOneof scopes oneof).remarks = oneof.remarks := by
  simp [Oneof.remarks, Oneof.memberRemarks, resolveOneof, resolveField, Field.remark]

theorem remarks_resolveExtension (extension : Extension) :
    (table.resolveExtension scopes extension).remarks = extension.remarks := by
  simp [Extension.remarks, Extension.memberRemarks, resolveExtension, resolveField, Field.remark]

/-- Resolving goes through the messages inside as well, and changes no remark there. -/
theorem remarks_resolveMessage (message : Message) :
    (table.resolveMessage scopes message).remarks = message.remarks := by
  induction message using Message.induction generalizing scopes with
  | step message inductionHypothesis =>
    have inner : (message.messages.map (table.resolveMessage (enter scopes message))).flatMap
        Message.remarks = message.messages.flatMap Message.remarks := by
      rw [List.flatMap_map]
      exact List.flatMap_congr fun inner member => inductionHypothesis inner member _
    rw [Message.remarks_eq, Message.remarks_eq, resolveMessage_eq]
    simp only [Message.memberRemarks, inner, List.map_map, List.flatMap_map,
      remarks_resolveOneof, remarks_resolveExtension]
    rfl

end SymbolTable

/-- A resolved file has the remarks of the parsed one. -/
theorem File.remarks_resolve (file : File) : file.resolve.remarks = file.remarks := by
  simp only [remarks, memberRemarks, resolve, SymbolTable.resolveMessages_eq, List.flatMap_map,
    SymbolTable.remarks_resolveMessage, SymbolTable.remarks_resolveExtension]

end ProtoSchema
