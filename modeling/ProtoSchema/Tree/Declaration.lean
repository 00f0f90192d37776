/-
This file defines the declarations of a schema and the file that holds them.
Every declaration owns those inside it; only an extension block nested in a
message refers back to that message, by the path that leads to it.
-/

import ProtoSchema.Tree.FieldType
import ProtoSchema.Tree.OptionValue

namespace ProtoSchema

/-! ### Fields -/

/-- How often a field may be set. -/
inductive FieldLabel where
  | singular
  | optional
  | repeated
deriving DecidableEq, Repr

/-- How a label is written, unless it is left out. -/
def FieldLabel.word? : FieldLabel → Option String
  | singular => none
  | optional => some "optional"
  | repeated => some "repeated"

/-- A field of a message, a oneof or an extension block. -/
structure Field where
  label : FieldLabel
  /-- Where a label was written, if one was. -/
  labelSpan : Option Span
  type : FieldType
  name : Name
  number : IntLiteral
  options : List OptionSetting
  /-- Which oneof of its message the field is a member of, if of one. -/
  oneof : Option Nat
  comments : Comments
  span : Span
deriving BEq, Repr

/-- Fields of which at most one is set. -/
structure Oneof where
  name : Name
  fields : List Field
  options : List OptionStatement
  comments : Comments
  span : Span
deriving BEq, Repr

/-! ### Reserved numbers and names -/

/-- What stands behind the first number of a range. -/
inductive RangeEnd where
  /-- The range is its first number alone. -/
  | absent
  | int (literal : IntLiteral)
  /-- The word that stands for the largest number. -/
  | max (span : Span)
deriving DecidableEq, Repr

/-- A range of numbers. -/
structure Range where
  first : IntLiteral
  last : RangeEnd
deriving DecidableEq, Repr

/-- From the first bound to the last. -/
def Range.span (range : Range) : Span :=
  match range.last with
  | .absent => range.first.span
  | .int last => range.first.span.through last.span
  | .max span => range.first.span.through span

/-- What one statement reserves. -/
inductive ReservedItems where
  | ranges (ranges : List Range)
  | names (names : List Name)
deriving DecidableEq, Repr

/-- A statement that reserves numbers or names. -/
structure Reserved where
  items : ReservedItems
  comments : Comments
  span : Span
deriving DecidableEq, Repr

/-- The numbers that a message leaves to extensions. -/
structure ExtensionRanges where
  ranges : List Range
  options : List OptionSetting
  comments : Comments
  span : Span
deriving BEq, Repr

/-! ### Enums and services -/

/-- A value of an enum. -/
structure EnumValue where
  name : Name
  number : IntLiteral
  options : List OptionSetting
  comments : Comments
  span : Span
deriving BEq, Repr

/-- An enum with its members, each kind in the order of the source. -/
structure Enumeration where
  name : Name
  values : List EnumValue
  options : List OptionStatement
  reserved : List Reserved
  /-- Several values may have one number. -/
  allowsAliases : Bool
  comments : Comments
  span : Span
deriving BEq, Repr

/-- A method of a service. -/
structure Method where
  name : Name
  input : TypeName
  output : TypeName
  streamsInput : Bool
  streamsOutput : Bool
  options : List OptionStatement
  comments : Comments
  span : Span
deriving BEq, Repr

/-- A service with its methods and options. -/
structure Service where
  name : Name
  methods : List Method
  options : List OptionStatement
  comments : Comments
  span : Span
deriving BEq, Repr

/-! ### Messages -/

/-- The place of a message: an index into the messages of the file, then one into the nested
messages at each level. -/
abbrev MessagePath := List Nat

/-- A block of fields that extend a message. -/
structure Extension where
  extendee : TypeName
  fields : List Field
  options : List OptionStatement
  /-- The message that the block is declared in, if any. -/
  parent : Option MessagePath
  /-- The extendee is one of the messages that hold options. -/
  extendsOptions : Bool
  comments : Comments
  span : Span
deriving BEq, Repr

/-- A message with its members, each kind in the order of the source. -/
structure Message where
  name : Name
  /-- The fields declared directly in the body; members of a oneof belong to the oneof. -/
  fields : List Field
  oneofs : List Oneof
  messages : List Message
  enums : List Enumeration
  extensions : List Extension
  extensionRanges : List ExtensionRanges
  options : List OptionStatement
  reserved : List Reserved
  comments : Comments
  span : Span
deriving BEq, Repr

/-- All fields of a message: those declared directly, then the members of each oneof. -/
def Message.allFields (message : Message) : List Field :=
  message.fields ++ message.oneofs.flatMap Oneof.fields

/-! ### Files -/

/-- The versions of the language. -/
inductive Edition where
  | proto2
  | proto3
deriving DecidableEq, Repr

namespace Edition

/-- The word that stands for the edition. -/
def name : Edition → String
  | proto2 => "proto2"
  | proto3 => "proto3"

/-- The edition that a word stands for, if it is known. -/
def ofName? : String → Option Edition
  | "proto2" => some proto2
  | "proto3" => some proto3
  | _ => none

theorem ofName?_name (edition : Edition) : ofName? edition.name = some edition := by
  cases edition <;> rfl

end Edition

/-- How a file is imported. -/
inductive ImportKind where
  | weak
  /-- What is imported is passed on to the importers of this file. -/
  | reexported
deriving DecidableEq, Repr

/-- The word in front of the path. -/
def ImportKind.name : ImportKind → String
  | weak => "weak"
  | reexported => "public"

/-- A statement that imports another file. -/
structure Import where
  kind : Option ImportKind
  /-- The path of the imported file, at the place of its literal. -/
  path : Name
  comments : Comments
  span : Span
deriving DecidableEq, Repr

/-- The statement that names the package of a file. -/
structure Package where
  name : DottedName
  comments : Comments
  span : Span
deriving DecidableEq, Repr

/-- A schema file. -/
structure File where
  /-- The version that the tree is in: sources in the older one are brought to the newer. -/
  edition : Edition := .proto3
  /-- The version that the source names, if it names one. -/
  declaredEdition : Option Edition := none
  package : Option Package := none
  imports : List Import := []
  options : List OptionStatement := []
  messages : List Message := []
  enums : List Enumeration := []
  services : List Service := []
  extensions : List Extension := []
deriving BEq, Repr

namespace File

/-- The file with nothing in it. -/
def empty : File := {}

/-- The name of the package; empty if there is none. -/
def packageName (file : File) : String :=
  (file.package.map fun package => package.name.text).getD ""

/-! ### Paths -/

/-- The message that a path leads to from a list of messages. -/
def descend (messages : List Message) : MessagePath → Option Message
  | [] => none
  | [index] => messages[index]?
  | index :: next :: rest =>
    messages[index]?.bind fun message => descend message.messages (next :: rest)

/-- The message at a path; the empty path leads to none. -/
def messageAt? (file : File) (path : MessagePath) : Option Message :=
  descend file.messages path

/-- The message that an extension block is declared in, if any. -/
def scopeOf? (file : File) (extension : Extension) : Option Message :=
  extension.parent.bind file.messageAt?

end File

end ProtoSchema
