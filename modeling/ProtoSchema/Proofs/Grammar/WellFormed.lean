/-
This file says which trees the grammar answers before references are resolved.
Names are identifiers, lists that have a first entry by the grammar are not
empty, values nest within the limits, every part stands where its indices and
paths say, and the checks made on each declaration found no fault. One condition
is on fields whose label was left out: the word that their type starts with has
no other meaning at that place.
-/

import ProtoSchema.Grammar.Files
import ProtoSchema.Proofs.Canonical.Tokens

namespace ProtoSchema

/-! ### Names -/

/-- The name is an identifier. -/
def Name.WellFormed (name : Name) : Prop := isIdentifier name.text = true

/-- The path has a part, and all parts are identifiers. -/
structure DottedName.WellFormed (name : DottedName) : Prop where
  some : name.parts ≠ []
  parts : ∀ part ∈ name.parts, part.WellFormed

/-- The dot in front of a name may be there or not. -/
def TypeName.WellFormed (name : TypeName) : Prop := name.path.WellFormed

/-! ### Options -/

/-- The name between brackets may be any name of a type. -/
def OptionKey.WellFormed : OptionKey → Prop
  | plain name => name.WellFormed
  | extension name _ => name.WellFormed

/-- Infinity is the greatest pattern. -/
def Double.WellFormed : Double → Prop
  | nan => True
  | number _ magnitude => magnitude.bits ≤ Magnitude.infinity.bits

namespace OptionValue

/-- The words that are values of their own and no identifiers. -/
def reservedWords : List String := ["true", "false", "inf", "nan"]

/-- The value is a scalar. -/
def IsScalar : OptionValue → Prop
  | identifier name => name.WellFormed ∧ name.text ∉ reservedWords
  | float value _ => value.WellFormed
  | int _ | string _ _ | bool _ _ => True
  | array _ _ | aggregate _ _ => False

/-- The value is a scalar or a list, or meets what is asked of messages; so do those in a list,
which are no lists. -/
def InEntry (isMessage : OptionValue → Prop) : OptionValue → Prop
  | array values _ => ∀ value ∈ values, value.IsScalar ∨ isMessage value
  | value => value.IsScalar ∨ isMessage value

/-- What stands in an entry is a list, or may stand in a list. -/
theorem InEntry.cases {isMessage : OptionValue → Prop} {value : OptionValue}
    (shape : value.InEntry isMessage) :
    (∃ values span, value = .array values span ∧
      ∀ inner ∈ values, inner.IsScalar ∨ isMessage inner) ∨ value.IsScalar ∨ isMessage value := by
  cases value with
  | array values span => exact .inl ⟨values, span, rfl, shape⟩
  | _ => exact .inr shape

/-- The value is a message in text format in which others nest to a depth less one. -/
def IsMessage : Nat → OptionValue → Prop
  | depth + 1, aggregate entries _ =>
    ∀ entry ∈ entries, entry.key.WellFormed ∧ entry.value.InEntry (IsMessage depth)
  | _, _ => False

end OptionValue

/-- The name has a key, and the value is a scalar or a message that nests within the limit. -/
structure OptionSetting.WellFormed (setting : OptionSetting) : Prop where
  some : setting.name ≠ []
  keys : ∀ key ∈ setting.name, key.WellFormed
  value : setting.value.IsScalar ∨ setting.value.IsMessage Nesting.optionValue.limit

/-- Nothing is asked of a statement but what is asked of its setting. -/
def OptionStatement.WellFormed (option : OptionStatement) : Prop := option.setting.WellFormed

/-! ### Fields -/

/-- The reference is undecided and its name is not that of a scalar. -/
structure TypeReference.WellFormed (reference : TypeReference) : Prop where
  undecided : reference.kind = .unresolved
  name : reference.name.WellFormed
  noScalar : ∀ word, reference.name.tokens = [.word word] → Scalar.ofName? word = none

/-- A reference is asked for more than a scalar, which has its name already. -/
def ValueType.WellFormed : ValueType → Prop
  | scalar _ _ => True
  | named reference => reference.WellFormed

/-- The values of a map are of a type that is itself no map. -/
def FieldType.WellFormed : FieldType → Prop
  | single type => type.WellFormed
  | map type =>
    type.key.isMapKey = true ∧ type.value.isMap = false ∧ type.value.valueType.WellFormed

/-- A type that is no map is the type of its values. -/
theorem FieldType.eq_single {type : FieldType} (noMap : type.isMap = false) :
    type = .single type.valueType := by
  cases type with
  | single type => rfl
  | map type => cases noMap

/-- The names of scalars are identifiers like others. -/
theorem Scalar.isIdentifier_name (scalar : Scalar) : isIdentifier scalar.name = true := by
  cases scalar <;> decide

/-- A type is one word, or starts with a dot or with a word and a dot. -/
theorem ValueType.WellFormed.tokens_cases {type : ValueType} (wellFormed : type.WellFormed) :
    (∃ word, type.tokens = [.word word]) ∨ (∃ others, type.tokens = .symbol .dot :: others) ∨
      ∃ word others, type.tokens = .word word :: .symbol .dot :: others := by
  cases type with
  | scalar type span => exact .inl ⟨_, rfl⟩
  | named reference =>
    obtain ⟨⟨dot, ⟨parts⟩⟩, kind⟩ := reference
    obtain ⟨first, others, rfl⟩ := List.exists_cons_of_ne_nil wellFormed.name.some
    cases dot with
    | some dot => exact .inr (.inl ⟨_, rfl⟩)
    | none =>
      cases others with
      | nil => exact .inl ⟨_, rfl⟩
      | cons second more => exact .inr (.inr ⟨_, _, rfl⟩)

/-- A type starts with a word or a dot. -/
theorem FieldType.WellFormed.tokens_eq_cons {type : FieldType} (wellFormed : type.WellFormed) :
    ∃ first others, type.tokens = first :: others ∧
      (first = .symbol .dot ∨ ∃ word, first = .word word) := by
  match type with
  | .map ⟨_, _, _, _⟩ => exact ⟨_, _, rfl, .inr ⟨_, rfl⟩⟩
  | .single type =>
    rw [FieldType.tokens]
    rcases ValueType.WellFormed.tokens_cases wellFormed with
      ⟨word, eq⟩ | ⟨others, eq⟩ | ⟨word, others, eq⟩
    · exact ⟨_, _, eq, .inr ⟨word, rfl⟩⟩
    · exact ⟨_, _, eq, .inl rfl⟩
    · exact ⟨_, _, eq, .inr ⟨word, rfl⟩⟩

/-- The words that are labels. -/
def labelWords : List String := ["optional", "repeated", "required"]

/-- The words that start a member other than a field. -/
def FieldContext.memberWords : FieldContext → List String
  | message => ["message", "enum", "oneof", "reserved", "extensions", "option", "extend"]
  | oneof _ | extension => ["option"]

/-- The type, in front of a field without a label, is read as a type. -/
def FieldType.Leads (context : FieldContext) (type : FieldType) : Prop :=
  ∀ word, type.tokens.head? = some (.word word) → word ∉ labelWords ++ context.memberWords

/-- What is asked of a field, given what the edition and the place of its declaration rule out. -/
structure Field.WellFormed (edition : Option Edition) (context : FieldContext) (field : Field) :
    Prop where
  type : field.type.WellFormed
  name : field.name.WellFormed
  number : Parser.fieldNumberFaults field.number = []
  options : ∀ option ∈ field.options, option.WellFormed
  defaults : Parser.defaultFaults edition field.options = []
  oneof : field.oneof = context.oneof?
  /-- A field without a label is singular. -/
  unlabelled : field.labelSpan = none → field.label = .singular
  /-- A field with a label that is singular was written with the word `required`. -/
  required : ∀ span, field.labelSpan = some span → field.label = .singular →
    Parser.requiredFaults edition context span = []
  leads : field.labelSpan = none → field.type.Leads context

/-! ### Reserved numbers and names -/

/-- The literal can stand as a bound; those of a message have no sign. -/
def RangeKind.Bounds (kind : RangeKind) (literal : IntLiteral) : Prop :=
  kind = .field → literal.negative = false

/-- Both bounds can be written where the range stands. -/
structure Range.WellFormed (kind : RangeKind) (range : Range) : Prop where
  first : kind.Bounds range.first
  last : ∀ literal, range.last = .int literal → kind.Bounds literal

/-- There is something to reserve, and each of it is written as it may be. -/
def ReservedItems.WellFormed (kind : RangeKind) : ReservedItems → Prop
  | ranges items => items ≠ [] ∧ ∀ range ∈ items, range.WellFormed kind
  | names items => items ≠ [] ∧ ∀ name ∈ items, name.WellFormed

/-- Nothing is asked of a statement that reserves but what is asked of its items. -/
def Reserved.WellFormed (kind : RangeKind) (reserved : Reserved) : Prop :=
  reserved.items.WellFormed kind

/-- There is a range, and no bound has a sign. -/
structure ExtensionRanges.WellFormed (extensions : ExtensionRanges) : Prop where
  some : extensions.ranges ≠ []
  ranges : ∀ range ∈ extensions.ranges, range.WellFormed .field
  options : ∀ option ∈ extensions.options, option.WellFormed

/-! ### Enums and services -/

/-- The name of a value is not one of the words that start another member. -/
structure EnumValue.WellFormed (value : EnumValue) : Prop where
  name : value.name.WellFormed
  leads : value.name.text ∉ ["option", "reserved"]
  number : Parser.enumNumberFaults value.number = []
  options : ∀ option ∈ value.options, option.WellFormed

/-- Whether an enum with the given options allows aliases. -/
def Enumeration.aliasesAfter (options : List OptionStatement) : Bool :=
  options.foldl (fun allows option =>
    if option.setting.isNamed "allow_alias" then option.setting.isTrue else allows) false

/-- What is asked of the members of an enum, its own rules apart. -/
structure Enumeration.Members (enumeration : Enumeration) : Prop where
  values : ∀ value ∈ enumeration.values, value.WellFormed
  options : ∀ option ∈ enumeration.options, option.WellFormed
  reserved : ∀ reserved ∈ enumeration.reserved, reserved.WellFormed .enumValue
  aliases : enumeration.allowsAliases = aliasesAfter enumeration.options

/-- The members are as they should be, and the check of the enum found nothing. -/
structure Enumeration.WellFormed (enumeration : Enumeration) : Prop where
  name : enumeration.name.WellFormed
  members : enumeration.Members
  sound : enumeration.faults = []

/-- The type is read back with the word for a stream as it is written. -/
def TypeName.Streams (streams : Bool) (name : TypeName) : Prop :=
  streams = false → Parser.startsStream name.tokens = false

/-- Both types are read back as they are written, next to the word for a stream. -/
structure Method.WellFormed (method : Method) : Prop where
  name : method.name.WellFormed
  input : method.input.WellFormed
  streamsInput : method.input.Streams method.streamsInput
  output : method.output.WellFormed
  streamsOutput : method.output.Streams method.streamsOutput
  options : ∀ option ∈ method.options, option.WellFormed

/-- What is asked of the members of a service, its own rules apart. -/
structure Service.Members (service : Service) : Prop where
  methods : ∀ method ∈ service.methods, method.WellFormed
  options : ∀ option ∈ service.options, option.WellFormed

/-- The members are as they should be, and the check of the service found nothing. -/
structure Service.WellFormed (service : Service) : Prop where
  name : service.name.WellFormed
  members : service.Members
  sound : service.faults = []

/-! ### Messages -/

/-- The fields know the index of the oneof. -/
structure Oneof.Members (edition : Option Edition) (index : Nat) (oneof : Oneof) : Prop where
  fields : ∀ field ∈ oneof.fields, field.WellFormed edition (.oneof index)
  options : ∀ option ∈ oneof.options, option.WellFormed

/-- The members are as they should be, and the check of the oneof found nothing. -/
structure Oneof.WellFormed (edition : Option Edition) (index : Nat) (oneof : Oneof) : Prop where
  name : oneof.name.WellFormed
  members : oneof.Members edition index
  sound : oneof.faults = []

/-- The block knows the message it stands in, and whether it extends options. -/
structure Extension.Members (edition : Option Edition) (parent : Option MessagePath)
    (extension : Extension) : Prop where
  fields : ∀ field ∈ extension.fields, field.WellFormed edition .extension
  options : ∀ option ∈ extension.options, option.WellFormed
  parent : extension.parent = parent
  extendsOptions : extension.extendsOptions = extension.extendee.namesOptions

/-- The members are as they should be, and the check of the block found nothing. -/
structure Extension.WellFormed (edition : Option Edition) (parent : Option MessagePath)
    (extension : Extension) : Prop where
  extendee : extension.extendee.WellFormed
  members : extension.Members edition parent
  sound : extension.faults edition = []

/-- The members of the message at a path, given what is asked of the nested messages. -/
structure Message.Members (edition : Option Edition) (nested : MessagePath → Message → Prop)
    (path : MessagePath) (message : Message) : Prop where
  fields : ∀ field ∈ message.fields, field.WellFormed edition .message
  oneofs : ∀ (index : Nat) (oneof : Oneof), message.oneofs[index]? = some oneof →
    oneof.WellFormed edition index
  messages : ∀ (index : Nat) (inner : Message), message.messages[index]? = some inner →
    nested (path ++ [index]) inner
  enums : ∀ enumeration ∈ message.enums, enumeration.WellFormed
  extensions : ∀ extension ∈ message.extensions, extension.WellFormed edition (some path)
  extensionRanges : ∀ extensions ∈ message.extensionRanges, extensions.WellFormed
  options : ∀ option ∈ message.options, option.WellFormed
  reserved : ∀ reserved ∈ message.reserved, reserved.WellFormed .field

/-- The message at a path, in which others nest to a depth less one. -/
def Message.WellFormed (edition : Option Edition) : Nat → MessagePath → Message → Prop
  | 0, _, _ => False
  | depth + 1, path, message =>
    message.name.WellFormed ∧ message.Members edition (WellFormed edition depth) path ∧
      message.faults = []

/-! ### Files -/

/-- What is asked of the members of a file, its own rules apart. -/
structure File.Members (declared : Option Edition) (file : File) : Prop where
  edition : file.edition = .proto3
  declaredEdition : file.declaredEdition = declared
  package : ∀ package ∈ file.package, package.name.WellFormed
  options : ∀ option ∈ file.options, option.WellFormed
  messages : ∀ (index : Nat) (message : Message), file.messages[index]? = some message →
    message.WellFormed declared Nesting.message.limit [index]
  enums : ∀ enumeration ∈ file.enums, enumeration.WellFormed
  services : ∀ service ∈ file.services, service.WellFormed
  extensions : ∀ extension ∈ file.extensions, extension.WellFormed declared none

/-- The members are as they should be, and the check of the file found nothing. -/
structure File.WellFormed (file : File) : Prop where
  members : file.Members file.declaredEdition
  sound : file.faults = []

end ProtoSchema
