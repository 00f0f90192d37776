/-
This file lists what can be wrong with a schema source. A fault is a cause and
the span it is reported at. The causes fall into three types: those found while
cutting the source into tokens, those that stop the reading of declarations,
and those found in declarations that could be read. Each cause has a message,
an optional hint and the labels that point into the source.
-/

import ProtoSchema.Source.Span

namespace ProtoSchema

/-- A cause and the place in the source it is reported at. -/
structure Fault (Cause : Type) where
  cause : Cause
  span : Span
deriving DecidableEq, Repr

/-- A text that points at a span. -/
structure Label where
  text : String
  span : Span
deriving DecidableEq, Repr

/-! ### Malformed tokens -/

/-- What can be wrong with the characters of a source. -/
inductive LexicalCause where
  | unknownCharacters
  | integerTooLarge
  | badStringCharacters
  | unterminatedString
  | badStringEscape
  | unterminatedComment
  | numberRunsIntoIdentifier
deriving DecidableEq, Repr

namespace LexicalCause

/-- The text of a lexical fault. -/
def message : LexicalCause → String
  | unknownCharacters => "invalid token"
  | integerTooLarge => "integer is too large"
  | badStringCharacters => "invalid string character"
  | unterminatedString => "unterminated string"
  | badStringEscape => "invalid string escape"
  | unterminatedComment => "unterminated block comment"
  | numberRunsIntoIdentifier => "whitespace is required between a number and an identifier"

/-- What the label at the fault says. -/
def labelText : LexicalCause → String
  | unknownCharacters => "found here"
  | integerTooLarge => "integer defined here"
  | badStringCharacters => "invalid characters"
  | unterminatedString => "string starts here"
  | badStringEscape => "defined here"
  | unterminatedComment => "comment starts here"
  | numberRunsIntoIdentifier => "found here"

end LexicalCause

/-- A fault found among the characters. -/
abbrev LexicalFault := Fault LexicalCause

/-! ### Token sequences outside the grammar -/

/-- The constructs whose nesting is bounded. -/
inductive Nesting where
  | message
  | optionValue
deriving DecidableEq, Repr

namespace Nesting

/-- How a nesting is named in a message. -/
def name : Nesting → String
  | message => "message"
  | optionValue => "option value"

/-- How many of them may be open at once. -/
def limit : Nesting → Nat
  | message => 32
  | optionValue => 100

end Nesting

/-- What can keep the parser from going on. -/
inductive GrammarCause where
  | stringNotUtf8
  | unexpectedToken (expected found : String)
  | unexpectedEnd (expected : String)
  | emptyStatement
  | nestedTooDeeply (construct : Nesting)
  | group
  /-- A repetition went on without consuming a token; no input leads here. -/
  | stalled
deriving DecidableEq, Repr

namespace GrammarCause

/-- The text of a fault that stops the parser. -/
def message : GrammarCause → String
  | stringNotUtf8 => "string is not valid utf-8"
  | unexpectedToken expected found => "expected " ++ expected ++ ", but found '" ++ found ++ "'"
  | unexpectedEnd expected => "expected " ++ expected ++ ", but reached end of file"
  | emptyStatement => "unexpected ';'"
  | nestedTooDeeply construct => construct.name ++ " is nested too deeply"
  | group => "groups are not supported"
  | stalled => "internal error: parsing stopped without reporting an error"

/-- The advice that comes with the text, if there is any. -/
def help : GrammarCause → Option String
  | emptyStatement => some "an empty statement is only allowed directly after a closing '\x7d'"
  | nestedTooDeeply construct =>
    some ("the maximum nesting depth is " ++ toString construct.limit)
  | group => some "declare a nested message and a field of that type instead"
  | stalled => some "this is a bug, please report it"
  | _ => none

/-- What the label at the fault says. -/
def labelText : GrammarCause → String
  | unexpectedToken _ _ | emptyStatement => "found here"
  | unexpectedEnd _ => "file ends here"
  | nestedTooDeeply _ => "limit exceeded here"
  | stalled => "while processing this"
  | stringNotUtf8 | group => "defined here"

end GrammarCause

/-- A fault that stops the parser. -/
abbrev GrammarFault := Fault GrammarCause

/-! ### Declarations that break a rule -/

/-- The declarations whose names must start with an uppercase letter. -/
inductive TypeLike where
  | message
  | enumeration
  | enumValue
  | service
  | method
deriving DecidableEq, Repr

/-- How a declaration is named in a message. -/
def TypeLike.name : TypeLike → String
  | message => "message"
  | enumeration => "enum"
  | enumValue => "enum value"
  | service => "service"
  | method => "method"

/-- The largest field number. -/
def maxFieldNumber : Nat := 536870911

/-- The first of the field numbers that are set aside for implementations. -/
def firstImplementationNumber : Nat := 19000

/-- The last of the field numbers that are set aside for implementations. -/
def lastImplementationNumber : Nat := 19999

/-- What is wrong with a declaration. The spans among the arguments are those of an earlier
declaration that the faulty one clashes with. -/
inductive SemanticCause where
  | unknownEdition (name : String)
  | badReservedName
  | badTypeName (kind : TypeLike) (name : String)
  | badPackageName (name : String)
  | badImportPath
  | repeatedImport (path : String) (first : Span)
  | repeatedPackage (first : Span)
  | fieldNumberOutOfRange
  | fieldNumberSetAside
  | enumNumberOutOfRange
  | reversedRange (first last : Int)
  | repeatedName (name : String) (first : Span)
  | repeatedFieldNumber (number : Int) (first : Span)
  | repeatedEnumNumber (number : Int) (first : Span)
  | reservedNumberUsed (number : Int) (reserved : Span)
  | reservedNameUsed (name : String) (reserved : Span)
  | emptyEnum
  | firstEnumValueNotZero
  | emptyOneof
  | labelInOneof
  | mapInOneof
  | labelOnMap
  | badMapKey
  | mapInExtension
  | requiredInExtension
  | badExtendee (name : String)
  | requiredInProto3
  | defaultInProto3
  | badMethodType (name : String)
deriving DecidableEq, Repr

namespace SemanticCause

/-- The text of a fault in what is declared. -/
def message : SemanticCause → String
  | unknownEdition name => "unknown syntax '" ++ name ++ "'"
  | badReservedName => "invalid identifier"
  | badTypeName kind name => "invalid " ++ kind.name ++ " name '" ++ name ++ "'"
  | badPackageName name => "invalid package name '" ++ name ++ "'"
  | badImportPath => "invalid import path"
  | repeatedImport path _ => "'" ++ path ++ "' is imported more than once"
  | repeatedPackage _ => "multiple package names specified"
  | fieldNumberOutOfRange => "field numbers must be between 1 and " ++ toString maxFieldNumber
  | fieldNumberSetAside =>
    "field numbers " ++ toString firstImplementationNumber ++ " to " ++
      toString lastImplementationNumber ++
      " are reserved for the protocol buffer library implementation"
  | enumNumberOutOfRange => "enum numbers must be between -2147483648 and 2147483647"
  | reversedRange first last =>
    "invalid reserved range: " ++ toString first ++ " is greater than " ++ toString last
  | repeatedName name _ => "name '" ++ name ++ "' is defined twice"
  | repeatedFieldNumber number _ =>
    "field number " ++ toString number ++ " is used more than once"
  | repeatedEnumNumber number _ => "enum number " ++ toString number ++ " is used more than once"
  | reservedNumberUsed number _ => "number " ++ toString number ++ " is reserved"
  | reservedNameUsed name _ => "name '" ++ name ++ "' is reserved"
  | emptyEnum => "an enum must have at least one value"
  | firstEnumValueNotZero => "the first value of an enum must be zero"
  | emptyOneof => "a oneof must have at least one field"
  | labelInOneof => "oneof fields cannot have labels"
  | mapInOneof => "map fields are not allowed in a oneof"
  | labelOnMap => "map fields cannot have labels"
  | badMapKey => "a map field key type must be an integer, boolean or string"
  | mapInExtension => "map fields are not allowed in extensions"
  | requiredInExtension => "extension fields may not be required"
  | badExtendee name => "'" ++ name ++ "' cannot be extended"
  | requiredInProto3 => "required fields are not allowed in proto3 syntax"
  | defaultInProto3 => "default values are not allowed in proto3 syntax"
  | badMethodType name => "invalid method type name '" ++ name ++ "'"

/-- The advice that comes with the text of such a fault, if there is any. -/
def help : SemanticCause → Option String
  | unknownEdition _ => some "possible values are 'proto2' and 'proto3'"
  | badReservedName =>
    some ("identifiers must consist of letters, numbers and underscores, and may not start with " ++
      "a number")
  | badTypeName kind _ =>
    some (kind.name ++ " names must start with an uppercase letter, followed by letters, numbers " ++
      "and underscores")
  | badImportPath =>
    some ("imports may not contain backslashes, repeated forward slashes, '.' or '..' " ++
      "components")
  | repeatedEnumNumber _ _ =>
    some "set 'option allow_alias = true;' to allow multiple values with the same number"
  | badExtendee _ =>
    some "only the 'google.protobuf.*Options' messages may be extended in proto3 files"
  | badMethodType _ =>
    some ("type names must be a dot-separated sequence of identifiers ending in a name which " ++
      "starts with an uppercase letter")
  | _ => none

/-- The labels of a fault reported at a span, in the order in which they are shown. -/
def labels (span : Span) : SemanticCause → List Label
  | repeatedImport _ first => [⟨"first imported here…", first⟩, ⟨"…and again here", span⟩]
  | repeatedPackage first => [⟨"defined here…", first⟩, ⟨"…and again here", span⟩]
  | repeatedName _ first => [⟨"first defined here…", first⟩, ⟨"…and again here", span⟩]
  | repeatedFieldNumber _ first | repeatedEnumNumber _ first =>
    [⟨"first used here…", first⟩, ⟨"…and again here", span⟩]
  | reservedNumberUsed _ reserved | reservedNameUsed _ reserved =>
    [⟨"used here…", span⟩, ⟨"…but reserved here", reserved⟩]
  | badExtendee _ => [⟨"extended here", span⟩]
  | _ => [⟨"defined here", span⟩]

end SemanticCause

/-- A fault in what is declared, which the parser goes past. -/
abbrev SemanticFault := Fault SemanticCause

end ProtoSchema
