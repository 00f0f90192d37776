/-
This file moves trees to other places in a source. A move says where each offset
at which something starts goes, and where each offset at which something ends;
what starts earlier still does after it. The comments are dropped: they stand
where nothing else does. What is left of a tree without its places does not
depend on where it was.
-/

import ProtoSchema.Proofs.Tree.Definitions

namespace ProtoSchema

/-- New places for the offsets at which something starts, and for those at which something ends. -/
structure Move where
  start : Nat → Nat
  stop : Nat → Nat
  strict : ∀ {first second : Nat}, first < second → start first < start second

namespace Move

variable {move : Move} {first second : Nat}

/-- Moving keeps the order of starts. -/
theorem start_le_iff : move.start first ≤ move.start second ↔ first ≤ second := by
  rcases Nat.lt_trichotomy first second with less | rfl | greater
  · exact ⟨fun _ => Nat.le_of_lt less, fun _ => Nat.le_of_lt (move.strict less)⟩
  · exact ⟨fun _ => Nat.le_refl _, fun _ => Nat.le_refl _⟩
  · exact ⟨fun before => absurd (move.strict greater) (Nat.not_lt.mpr before),
      fun before => absurd greater (Nat.not_lt.mpr before)⟩

theorem start_injective (same : move.start first = move.start second) : first = second :=
  Nat.le_antisymm (start_le_iff.mp (Nat.le_of_eq same))
    (start_le_iff.mp (Nat.le_of_eq same.symm))

end Move

/-- A span whose two ends are moved on. -/
def Span.moved (move : Move) (span : Span) : Span :=
  ⟨move.start span.start, move.stop span.stop⟩

instance : Coe Move (Span → Span) := ⟨Span.moved⟩

/-! ### Leaves -/

/-- A name with its place changed. -/
def Name.moved (change : Span → Span) (name : Name) : Name := { name with span := change name.span }

/-- A path with the places of all its parts changed. -/
def DottedName.moved (change : Span → Span) (name : DottedName) : DottedName :=
  ⟨name.parts.map (Name.moved change)⟩

/-- The dot in front has a place of its own. -/
def TypeName.moved (change : Span → Span) (name : TypeName) : TypeName :=
  ⟨name.dot.map change, name.path.moved change⟩

/-- A number with its place changed. -/
def IntLiteral.moved (change : Span → Span) (literal : IntLiteral) : IntLiteral :=
  { literal with span := change literal.span }

/-! ### Options -/

/-- A key with its place changed; the name in brackets has another one. -/
def OptionKey.moved (change : Span → Span) : OptionKey → OptionKey
  | plain name => plain (name.moved change)
  | extension name span => extension (name.moved change) (change span)

mutual

/-- A value with its place and those of all that it holds changed. -/
def OptionValue.moved (change : Span → Span) : OptionValue → OptionValue
  | .identifier name => .identifier (name.moved change)
  | .int literal => .int (literal.moved change)
  | .float value span => .float value (change span)
  | .string bytes span => .string bytes (change span)
  | .bool value span => .bool value (change span)
  | .array values span => .array (OptionValue.movedList change values) (change span)
  | .aggregate entries span => .aggregate (OptionEntry.movedList change entries) (change span)

/-- The values in a list. -/
def OptionValue.movedList (change : Span → Span) : List OptionValue → List OptionValue
  | [] => []
  | value :: rest => value.moved change :: OptionValue.movedList change rest

/-- An entry with its place and those of its key and its value changed. -/
def OptionEntry.moved (change : Span → Span) : OptionEntry → OptionEntry
  | ⟨key, value, span⟩ => ⟨key.moved change, value.moved change, change span⟩

/-- The entries of a message. -/
def OptionEntry.movedList (change : Span → Span) : List OptionEntry → List OptionEntry
  | [] => []
  | entry :: rest => entry.moved change :: OptionEntry.movedList change rest

end

/-- A setting has no place but those of its name and its value. -/
def OptionSetting.moved (change : Span → Span) (setting : OptionSetting) : OptionSetting :=
  ⟨setting.name.map (OptionKey.moved change), setting.value.moved change⟩

/-- The comments go, here and in every declaration. -/
def OptionStatement.moved (change : Span → Span) (option : OptionStatement) : OptionStatement :=
  ⟨option.setting.moved change, .none, change option.span⟩

/-! ### Fields -/

/-- What the reference was decided to stays. -/
def TypeReference.moved (change : Span → Span) (reference : TypeReference) : TypeReference :=
  { reference with name := reference.name.moved change }

/-- A type with its place changed. -/
def ValueType.moved (change : Span → Span) : ValueType → ValueType
  | scalar type span => scalar type (change span)
  | named reference => named (reference.moved change)

/-- A map has places for itself and for its key, next to that of its value. -/
def FieldType.moved (change : Span → Span) : FieldType → FieldType
  | single type => single (type.moved change)
  | map ⟨key, keySpan, value, span⟩ => map ⟨key, change keySpan, value.moved change, change span⟩

/-- A label has a place if it was written. -/
def Field.moved (change : Span → Span) (field : Field) : Field :=
  { field with
    labelSpan := field.labelSpan.map change
    type := field.type.moved change
    name := field.name.moved change
    number := field.number.moved change
    options := field.options.map (OptionSetting.moved change)
    comments := .none
    span := change field.span }

/-! ### Declarations -/

/-- The greatest number has a place, that of its word. -/
def RangeEnd.moved (change : Span → Span) : RangeEnd → RangeEnd
  | absent => absent
  | int literal => int (literal.moved change)
  | max span => max (change span)

/-- A range has the places of its bounds. -/
def Range.moved (change : Span → Span) (range : Range) : Range :=
  ⟨range.first.moved change, range.last.moved change⟩

/-- What is reserved has places, be it ranges or names. -/
def ReservedItems.moved (change : Span → Span) : ReservedItems → ReservedItems
  | ranges items => ranges (items.map (Range.moved change))
  | names items => names (items.map (Name.moved change))

/-- A statement that reserves, with its place changed. -/
def Reserved.moved (change : Span → Span) (reserved : Reserved) : Reserved :=
  ⟨reserved.items.moved change, .none, change reserved.span⟩

/-- Ranges left to extensions, with their places changed. -/
def ExtensionRanges.moved (change : Span → Span) (extensions : ExtensionRanges) : ExtensionRanges :=
  ⟨extensions.ranges.map (Range.moved change), extensions.options.map (OptionSetting.moved change),
    .none, change extensions.span⟩

/-- A oneof with the places of its fields and options changed. -/
def Oneof.moved (change : Span → Span) (oneof : Oneof) : Oneof :=
  ⟨oneof.name.moved change, oneof.fields.map (Field.moved change),
    oneof.options.map (OptionStatement.moved change), .none, change oneof.span⟩

/-- A value of an enum with its place changed. -/
def EnumValue.moved (change : Span → Span) (value : EnumValue) : EnumValue :=
  ⟨value.name.moved change, value.number.moved change, value.options.map (OptionSetting.moved change),
    .none, change value.span⟩

/-- An enum with the places of its members changed; whether it may have aliases stays. -/
def Enumeration.moved (change : Span → Span) (enumeration : Enumeration) : Enumeration :=
  { enumeration with
    name := enumeration.name.moved change
    values := enumeration.values.map (EnumValue.moved change)
    options := enumeration.options.map (OptionStatement.moved change)
    reserved := enumeration.reserved.map (Reserved.moved change)
    comments := .none
    span := change enumeration.span }

/-- A method with the places of its types changed; what it streams stays. -/
def Method.moved (change : Span → Span) (method : Method) : Method :=
  { method with
    name := method.name.moved change
    input := method.input.moved change
    output := method.output.moved change
    options := method.options.map (OptionStatement.moved change)
    comments := .none
    span := change method.span }

/-- A service with the places of its methods changed. -/
def Service.moved (change : Span → Span) (service : Service) : Service :=
  ⟨service.name.moved change, service.methods.map (Method.moved change),
    service.options.map (OptionStatement.moved change), .none, change service.span⟩

/-- An extension block with the places of its fields changed; the message it stands in stays. -/
def Extension.moved (change : Span → Span) (extension : Extension) : Extension :=
  { extension with
    extendee := extension.extendee.moved change
    fields := extension.fields.map (Field.moved change)
    options := extension.options.map (OptionStatement.moved change)
    comments := .none
    span := change extension.span }

mutual

/-- A message with the places of all its members changed, those of other messages included. -/
def Message.moved (change : Span → Span) : Message → Message
  | ⟨name, fields, oneofs, messages, enums, extensions, extensionRanges, options, reserved, _,
      span⟩ =>
    ⟨name.moved change, fields.map (Field.moved change), oneofs.map (Oneof.moved change),
      Message.movedList change messages, enums.map (Enumeration.moved change),
      extensions.map (Extension.moved change), extensionRanges.map (ExtensionRanges.moved change),
      options.map (OptionStatement.moved change), reserved.map (Reserved.moved change), .none,
      change span⟩

/-- The messages inside another. -/
def Message.movedList (change : Span → Span) : List Message → List Message
  | [] => []
  | message :: rest => message.moved change :: Message.movedList change rest

end

/-! ### Files -/

/-- An import with its place and that of its path changed. -/
def Import.moved (change : Span → Span) (entry : Import) : Import :=
  ⟨entry.kind, entry.path.moved change, .none, change entry.span⟩

/-- A package with its place changed. -/
def Package.moved (change : Span → Span) (package : Package) : Package :=
  ⟨package.name.moved change, .none, change package.span⟩

/-- A file with every place in it changed. -/
def File.moved (change : Span → Span) (file : File) : File :=
  { file with
    package := file.package.map (Package.moved change)
    imports := file.imports.map (Import.moved change)
    options := file.options.map (OptionStatement.moved change)
    messages := file.messages.map (Message.moved change)
    enums := file.enums.map (Enumeration.moved change)
    services := file.services.map (Service.moved change)
    extensions := file.extensions.map (Extension.moved change) }

/-! ### Lists inside trees -/

variable (change : Span → Span)

/-- The functions on lists are there for the recursion alone. -/
theorem OptionValue.movedList_eq (values : List OptionValue) :
    OptionValue.movedList change values = values.map (OptionValue.moved change) := by
  induction values with
  | nil => rfl
  | cons value rest inductionHypothesis => rw [movedList, inductionHypothesis, List.map_cons]

theorem OptionEntry.movedList_eq (entries : List OptionEntry) :
    OptionEntry.movedList change entries = entries.map (OptionEntry.moved change) := by
  induction entries with
  | nil => rfl
  | cons entry rest inductionHypothesis => rw [movedList, inductionHypothesis, List.map_cons]

theorem Message.movedList_eq (messages : List Message) :
    Message.movedList change messages = messages.map (Message.moved change) := by
  induction messages with
  | nil => rfl
  | cons message rest inductionHypothesis => rw [movedList, inductionHypothesis, List.map_cons]

/-- The parts of a message that was moved. -/
theorem Message.moved_eq (message : Message) :
    message.moved change =
      ⟨message.name.moved change, message.fields.map (Field.moved change),
        message.oneofs.map (Oneof.moved change), message.messages.map (Message.moved change),
        message.enums.map (Enumeration.moved change), message.extensions.map (Extension.moved change),
        message.extensionRanges.map (ExtensionRanges.moved change),
        message.options.map (OptionStatement.moved change),
        message.reserved.map (Reserved.moved change), .none, change message.span⟩ := by
  cases message
  rw [Message.moved, Message.movedList_eq]

/-! ### Texts and places -/

/-- Names keep their texts when their places change. -/
theorem DottedName.text_moved {change : Span → Span} (name : DottedName) :
    (name.moved change).text = name.text := by
  rw [text, text, moved, List.map_map]
  rfl

theorem TypeName.text_moved {change : Span → Span} (name : TypeName) :
    (name.moved change).text = name.text := by
  rw [text, text, moved, DottedName.text_moved, Option.isSome_map]

theorem OptionKey.span_moved (key : OptionKey) : (key.moved change).span = change key.span := by
  cases key <;> rfl

theorem OptionValue.span_moved (value : OptionValue) :
    (value.moved change).span = change value.span := by
  cases value <;> rfl

/-- An option is told by its name, wherever it stands. -/
theorem OptionSetting.isNamed_moved (setting : OptionSetting) (word : String) :
    (setting.moved change).isNamed word = setting.isNamed word := by
  obtain ⟨name, value⟩ := setting
  match name with
  | [] | [.plain _] | [.extension _ _] | .plain _ :: _ :: _ | .extension _ _ :: _ :: _ => rfl

/-- The name of an option that is a single key moves with the key. -/
theorem OptionSetting.nameSpan_moved {setting : OptionSetting} {word : String} (named : setting.isNamed word) :
    (setting.moved change).nameSpan = change setting.nameSpan := by
  obtain ⟨name, value⟩ := setting
  rw [isNamed] at named
  split at named
  · next key eq =>
    obtain rfl : name = [.plain key] := eq
    rfl
  · cases named

/-! ### Moving twice -/

section Twice

variable (first second : Span → Span)

/-- Changing places twice is changing them once, here and for all that follows. -/
@[simp]
theorem Name.moved_moved (name : Name) :
    (name.moved first).moved second = name.moved (second ∘ first) := rfl

@[simp]
theorem DottedName.moved_moved (name : DottedName) :
    (name.moved first).moved second = name.moved (second ∘ first) := by
  simp [moved]

@[simp]
theorem TypeName.moved_moved (name : TypeName) :
    (name.moved first).moved second = name.moved (second ∘ first) := by
  simp [moved]

@[simp]
theorem IntLiteral.moved_moved (literal : IntLiteral) :
    (literal.moved first).moved second = literal.moved (second ∘ first) := rfl

@[simp]
theorem OptionKey.moved_moved (key : OptionKey) :
    (key.moved first).moved second = key.moved (second ∘ first) := by
  cases key <;> simp [moved]

mutual

/-- The recursion goes through the lists and messages in a value. -/
@[simp]
theorem OptionValue.moved_moved : ∀ value : OptionValue,
    (value.moved first).moved second = value.moved (second ∘ first)
  | .identifier _ | .int _ | .float _ _ | .string _ _ | .bool _ _ => rfl
  | .array values _ => by
    rw [OptionValue.moved, OptionValue.moved, OptionValue.moved, OptionValue.movedList_movedList]
    rfl
  | .aggregate entries _ => by
    rw [OptionValue.moved, OptionValue.moved, OptionValue.moved, OptionEntry.movedList_movedList]
    rfl

theorem OptionValue.movedList_movedList : ∀ values : List OptionValue,
    OptionValue.movedList second (OptionValue.movedList first values) =
      OptionValue.movedList (second ∘ first) values
  | [] => rfl
  | value :: rest => by
    rw [OptionValue.movedList, OptionValue.movedList, OptionValue.movedList,
      OptionValue.moved_moved value, OptionValue.movedList_movedList rest]

theorem OptionEntry.moved_moved : ∀ entry : OptionEntry,
    (entry.moved first).moved second = entry.moved (second ∘ first)
  | ⟨key, value, _⟩ => by
    rw [OptionEntry.moved, OptionEntry.moved, OptionEntry.moved, OptionKey.moved_moved,
      OptionValue.moved_moved value]
    rfl

theorem OptionEntry.movedList_movedList : ∀ entries : List OptionEntry,
    OptionEntry.movedList second (OptionEntry.movedList first entries) =
      OptionEntry.movedList (second ∘ first) entries
  | [] => rfl
  | entry :: rest => by
    rw [OptionEntry.movedList, OptionEntry.movedList, OptionEntry.movedList,
      OptionEntry.moved_moved entry, OptionEntry.movedList_movedList rest]

end

@[simp]
theorem OptionSetting.moved_moved (setting : OptionSetting) :
    (setting.moved first).moved second = setting.moved (second ∘ first) := by
  simp [moved, Function.comp_def]

@[simp]
theorem OptionStatement.moved_moved (option : OptionStatement) :
    (option.moved first).moved second = option.moved (second ∘ first) := by
  simp [moved]

@[simp]
theorem ValueType.moved_moved (type : ValueType) :
    (type.moved first).moved second = type.moved (second ∘ first) := by
  cases type <;> simp [moved, TypeReference.moved]

/-- The value of a map may have maps in it. -/
@[simp]
theorem FieldType.moved_moved (type : FieldType) :
    (type.moved first).moved second = type.moved (second ∘ first) := by
  induction type with
  | scalar | named => simp [moved, ValueType.moved, TypeReference.moved]
  | map key keySpan value span inductionHypothesis => simp [moved, inductionHypothesis]

@[simp]
theorem Field.moved_moved (field : Field) :
    (field.moved first).moved second = field.moved (second ∘ first) := by
  simp [moved, Function.comp_def]

@[simp]
theorem Range.moved_moved (range : Range) :
    (range.moved first).moved second = range.moved (second ∘ first) := by
  obtain ⟨start, last⟩ := range
  cases last <;> simp [moved, RangeEnd.moved]

@[simp]
theorem Reserved.moved_moved (reserved : Reserved) :
    (reserved.moved first).moved second = reserved.moved (second ∘ first) := by
  obtain ⟨items, comments, span⟩ := reserved
  cases items <;> simp [moved, ReservedItems.moved, Function.comp_def]

@[simp]
theorem ExtensionRanges.moved_moved (extensions : ExtensionRanges) :
    (extensions.moved first).moved second = extensions.moved (second ∘ first) := by
  simp [moved, Function.comp_def]

@[simp]
theorem Oneof.moved_moved (oneof : Oneof) :
    (oneof.moved first).moved second = oneof.moved (second ∘ first) := by
  simp [moved, Function.comp_def]

@[simp]
theorem EnumValue.moved_moved (value : EnumValue) :
    (value.moved first).moved second = value.moved (second ∘ first) := by
  simp [moved, Function.comp_def]

@[simp]
theorem Enumeration.moved_moved (enumeration : Enumeration) :
    (enumeration.moved first).moved second = enumeration.moved (second ∘ first) := by
  simp [moved, Function.comp_def]

@[simp]
theorem Method.moved_moved (method : Method) :
    (method.moved first).moved second = method.moved (second ∘ first) := by
  simp [moved, Function.comp_def]

@[simp]
theorem Service.moved_moved (service : Service) :
    (service.moved first).moved second = service.moved (second ∘ first) := by
  simp [moved, Function.comp_def]

@[simp]
theorem Extension.moved_moved (extension : Extension) :
    (extension.moved first).moved second = extension.moved (second ∘ first) := by
  simp [moved, Function.comp_def]

/-- The recursion goes through the messages inside. -/
@[simp]
theorem Message.moved_moved (message : Message) :
    (message.moved first).moved second = message.moved (second ∘ first) := by
  induction message using Message.induction with
  | step message inductionHypothesis =>
    rw [moved_eq, moved_eq, moved_eq]
    have messages : (message.messages.map (moved first)).map (moved second) =
        message.messages.map (moved (second ∘ first)) := by
      rw [List.map_map]
      exact List.map_congr_left inductionHypothesis
    rw [messages]
    simp [Function.comp_def]

@[simp]
theorem Import.moved_moved (entry : Import) :
    (entry.moved first).moved second = entry.moved (second ∘ first) := by
  simp [moved]

@[simp]
theorem Package.moved_moved (package : Package) :
    (package.moved first).moved second = package.moved (second ∘ first) := by
  simp [moved]

/-- In a whole file places may be changed one way after the other, or in one go. -/
theorem File.moved_moved (file : File) :
    (file.moved first).moved second = file.moved (second ∘ first) := by
  simp [moved, Function.comp_def]

end Twice

/-- A file without its places and comments. Whether a field has a label, a dot in front of the name
of its type or an option stays. -/
def File.placeless (file : File) : File := file.moved fun _ => .erased

/-- What is left of a file without its places does not depend on them. -/
theorem File.placeless_moved (file : File) : (file.moved change).placeless = file.placeless :=
  file.moved_moved change _

end ProtoSchema
