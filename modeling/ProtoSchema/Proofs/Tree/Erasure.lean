/-
This file erases from a tree what depends on the layout of its source: every
span, the places of labels included, and every comment. Two sources of one
schema have trees that are equal once both are erased. Names, numbers, labels,
the kinds of references, the places of oneofs and of extension blocks and the
presence of a dot in front of a type name all stay.
-/

import ProtoSchema.Tree.Declaration

namespace ProtoSchema

/-! ### Leaves -/

/-- The span that stands for an erased one. -/
def Span.erased : Span := .point 0

/-- A name keeps its text. -/
def Name.erased (name : Name) : Name := { name with span := .erased }

/-- Names keep their texts, here and in what follows. -/
@[simp]
theorem Name.text_erased (name : Name) : name.erased.text = name.text := rfl

/-- A path keeps the texts of its parts. -/
def DottedName.erased (name : DottedName) : DottedName := ⟨name.parts.map Name.erased⟩

@[simp]
theorem DottedName.text_erased (name : DottedName) : name.erased.text = name.text := by
  simp [text, erased, Function.comp_def]

/-- A dot in front of the name stays, without its place. -/
def TypeName.erased (name : TypeName) : TypeName :=
  ⟨name.dot.map fun _ => .erased, name.path.erased⟩

@[simp]
theorem TypeName.text_erased (name : TypeName) : name.erased.text = name.text := by
  simp [text, erased]

/-- A number keeps its sign and its magnitude. -/
def IntLiteral.erased (literal : IntLiteral) : IntLiteral := { literal with span := .erased }

/-! ### Options -/

/-- Whether a key is the name of an extension stays. -/
def OptionKey.erased : OptionKey → OptionKey
  | plain name => plain name.erased
  | extension name _ => extension name.erased .erased

mutual

/-- A value without its place, and all that it holds without theirs. -/
def OptionValue.erased : OptionValue → OptionValue
  | .identifier name => .identifier name.erased
  | .int literal => .int literal.erased
  | .float value _ => .float value .erased
  | .string bytes _ => .string bytes .erased
  | .bool value _ => .bool value .erased
  | .array values _ => .array (OptionValue.erasedList values) .erased
  | .aggregate entries _ => .aggregate (OptionEntry.erasedList entries) .erased

/-- The values in a list. -/
def OptionValue.erasedList : List OptionValue → List OptionValue
  | [] => []
  | value :: rest => value.erased :: OptionValue.erasedList rest

/-- An entry without its place. -/
def OptionEntry.erased : OptionEntry → OptionEntry
  | ⟨key, value, _⟩ => ⟨key.erased, value.erased, .erased⟩

/-- The entries of a message. -/
def OptionEntry.erasedList : List OptionEntry → List OptionEntry
  | [] => []
  | entry :: rest => entry.erased :: OptionEntry.erasedList rest

end

/-- A setting keeps the texts of its keys and its value. -/
def OptionSetting.erased (setting : OptionSetting) : OptionSetting :=
  ⟨setting.name.map OptionKey.erased, setting.value.erased⟩

/-- The comments go with the place, here and in every declaration. -/
def OptionStatement.erased (option : OptionStatement) : OptionStatement :=
  ⟨option.setting.erased, .none, .erased⟩

/-! ### Fields -/

/-- What the reference was decided to stays. -/
def TypeReference.erased (reference : TypeReference) : TypeReference :=
  { reference with name := reference.name.erased }

/-- A scalar stays what it is. -/
def ValueType.erased : ValueType → ValueType
  | scalar type _ => scalar type .erased
  | named reference => named reference.erased

/-- A map keeps its key and the type of its values. -/
def FieldType.erased : FieldType → FieldType
  | single type => single type.erased
  | map ⟨key, _, value, _⟩ => map ⟨key, .erased, value.erased, .erased⟩

/-- A label stays, though not whether it was written: a singular field may have been required. -/
def Field.erased (field : Field) : Field :=
  { field with
    labelSpan := none
    type := field.type.erased
    name := field.name.erased
    number := field.number.erased
    options := field.options.map OptionSetting.erased
    comments := .none
    span := .erased }

/-! ### Declarations -/

/-- Whether a range has an end, and whether that is the greatest number, stays. -/
def RangeEnd.erased : RangeEnd → RangeEnd
  | absent => absent
  | int literal => int literal.erased
  | max _ => max .erased

/-- A range keeps its bounds. -/
def Range.erased (range : Range) : Range := ⟨range.first.erased, range.last.erased⟩

/-- Whether ranges or names are reserved stays. -/
def ReservedItems.erased : ReservedItems → ReservedItems
  | ranges items => ranges (items.map Range.erased)
  | names items => names (items.map Name.erased)

/-- A statement that reserves keeps what it reserves. -/
def Reserved.erased (reserved : Reserved) : Reserved :=
  ⟨reserved.items.erased, .none, .erased⟩

/-- Ranges left to extensions keep their settings. -/
def ExtensionRanges.erased (extensions : ExtensionRanges) : ExtensionRanges :=
  ⟨extensions.ranges.map Range.erased, extensions.options.map OptionSetting.erased, .none, .erased⟩

/-- A oneof keeps its fields and options, in order. -/
def Oneof.erased (oneof : Oneof) : Oneof :=
  ⟨oneof.name.erased, oneof.fields.map Field.erased, oneof.options.map OptionStatement.erased,
    .none, .erased⟩

/-- A value of an enum keeps its number. -/
def EnumValue.erased (value : EnumValue) : EnumValue :=
  ⟨value.name.erased, value.number.erased, value.options.map OptionSetting.erased, .none, .erased⟩

/-- Whether an enum may have aliases stays. -/
def Enumeration.erased (enumeration : Enumeration) : Enumeration :=
  { enumeration with
    name := enumeration.name.erased
    values := enumeration.values.map EnumValue.erased
    options := enumeration.options.map OptionStatement.erased
    reserved := enumeration.reserved.map Reserved.erased
    comments := .none
    span := .erased }

/-- What a method streams stays. -/
def Method.erased (method : Method) : Method :=
  { method with
    name := method.name.erased
    input := method.input.erased
    output := method.output.erased
    options := method.options.map OptionStatement.erased
    comments := .none
    span := .erased }

/-- A service keeps its methods, in order. -/
def Service.erased (service : Service) : Service :=
  ⟨service.name.erased, service.methods.map Method.erased,
    service.options.map OptionStatement.erased, .none, .erased⟩

/-- The message that a block stands in stays, and so does whether it extends options. -/
def Extension.erased (extension : Extension) : Extension :=
  { extension with
    extendee := extension.extendee.erased
    fields := extension.fields.map Field.erased
    options := extension.options.map OptionStatement.erased
    comments := .none
    span := .erased }

mutual

/-- A message keeps its members, in order and kind by kind. -/
def Message.erased : Message → Message
  | ⟨name, fields, oneofs, messages, enums, extensions, extensionRanges, options, reserved, _, _⟩ =>
    ⟨name.erased, fields.map Field.erased, oneofs.map Oneof.erased, Message.erasedList messages,
      enums.map Enumeration.erased, extensions.map Extension.erased,
      extensionRanges.map ExtensionRanges.erased, options.map OptionStatement.erased,
      reserved.map Reserved.erased, .none, .erased⟩

/-- The messages inside another. -/
def Message.erasedList : List Message → List Message
  | [] => []
  | message :: rest => message.erased :: Message.erasedList rest

end

/-! ### Files -/

/-- An import keeps its kind and its path. -/
def Import.erased (entry : Import) : Import :=
  ⟨entry.kind, entry.path.erased, .none, .erased⟩

/-- A package keeps its name. -/
def Package.erased (package : Package) : Package := ⟨package.name.erased, .none, .erased⟩

/-- A file keeps the edition that it declares. -/
def File.erased (file : File) : File :=
  { file with
    package := file.package.map Package.erased
    imports := file.imports.map Import.erased
    options := file.options.map OptionStatement.erased
    messages := file.messages.map Message.erased
    enums := file.enums.map Enumeration.erased
    services := file.services.map Service.erased
    extensions := file.extensions.map Extension.erased }

/-! ### Lists inside trees -/

/-- The functions on lists are there for the recursion alone. -/
theorem OptionValue.erasedList_eq (values : List OptionValue) :
    OptionValue.erasedList values = values.map OptionValue.erased := by
  induction values with
  | nil => rfl
  | cons value rest inductionHypothesis => rw [erasedList, inductionHypothesis, List.map_cons]

theorem OptionEntry.erasedList_eq (entries : List OptionEntry) :
    OptionEntry.erasedList entries = entries.map OptionEntry.erased := by
  induction entries with
  | nil => rfl
  | cons entry rest inductionHypothesis => rw [erasedList, inductionHypothesis, List.map_cons]

/-- What the erased lists are, without the functions on lists. -/
theorem OptionValue.erased_array (values : List OptionValue) (span : Span) :
    (array values span).erased = array (values.map erased) .erased := by
  rw [erased, erasedList_eq]

theorem OptionValue.erased_aggregate (entries : List OptionEntry) (span : Span) :
    (aggregate entries span).erased = aggregate (entries.map OptionEntry.erased) .erased := by
  rw [erased, OptionEntry.erasedList_eq]

theorem Message.erasedList_eq (messages : List Message) :
    Message.erasedList messages = messages.map Message.erased := by
  induction messages with
  | nil => rfl
  | cons message rest inductionHypothesis => rw [erasedList, inductionHypothesis, List.map_cons]

/-- The parts of an erased message. -/
theorem Message.erased_eq (message : Message) :
    message.erased =
      ⟨message.name.erased, message.fields.map Field.erased, message.oneofs.map Oneof.erased,
        message.messages.map Message.erased, message.enums.map Enumeration.erased,
        message.extensions.map Extension.erased,
        message.extensionRanges.map ExtensionRanges.erased,
        message.options.map OptionStatement.erased, message.reserved.map Reserved.erased, .none,
        .erased⟩ := by
  cases message
  rw [Message.erased, Message.erasedList_eq]

end ProtoSchema
