/-
This file gives for each part of a tree the tokens of its canonical form. They
say nothing of lines and blanks, which the grammar does not see, and nothing of
spans, comments and the kinds of references, which are not printed.
-/

import ProtoSchema.Proofs.Tree.Erasure

namespace ProtoSchema

/-- Token lists with a mark between them. -/
def separated (mark : Symbol) : List (List Token) → List Token
  | [] => []
  | first :: rest => first ++ rest.flatMap (.symbol mark :: ·)

/-- Tokens in braces. -/
def braced (tokens : List Token) : List Token :=
  .symbol .leftBrace :: (tokens ++ [.symbol .rightBrace])

/-! ### Names and numbers -/

/-- The parts as words, with dots between them. -/
def DottedName.tokens (name : DottedName) : List Token :=
  separated .dot (name.parts.map fun part => [.word part.text])

/-- A dot in front, if there is one, and the path. -/
def TypeName.tokens (name : TypeName) : List Token :=
  (if name.dot.isSome then [.symbol .dot] else []) ++ name.path.tokens

/-- The tokens of a minus sign, if there is one. -/
def minusTokens (negative : Bool) : List Token :=
  if negative then [.symbol .minus] else []

/-- A minus, if the number has one, and its magnitude. -/
def IntLiteral.tokens (literal : IntLiteral) : List Token :=
  minusTokens literal.negative ++ [.int literal.magnitude]

/-- A value that is no number has no sign; infinity is a word, with a sign or without. -/
def Double.tokens : Double → List Token
  | nan => [.word "nan"]
  | number negative magnitude =>
    minusTokens negative ++ [if magnitude.isInfinite then .word "inf" else .float magnitude]

/-! ### Options -/

/-- The tokens of a key, between the given brackets if it names an extension. -/
def OptionKey.tokens (opening closing : Symbol) : OptionKey → List Token
  | plain name => [.word name.text]
  | extension name _ => .symbol opening :: (name.tokens ++ [.symbol closing])

mutual

/-- An identifier is the same word whatever it names; lists and messages are closed by the bracket
that opens them. -/
def OptionValue.tokens : OptionValue → List Token
  | .identifier name => [.word name.text]
  | .int literal => literal.tokens
  | .float value _ => value.tokens
  | .string bytes _ => [.string bytes]
  | .bool value _ => [.word (if value then "true" else "false")]
  | .array values _ =>
    .symbol .leftBracket :: (separated .comma (OptionValue.tokensEach values) ++
      [.symbol .rightBracket])
  | .aggregate entries _ => braced (OptionEntry.tokensAll entries)

/-- The tokens of each value, to be put together with commas. -/
def OptionValue.tokensEach : List OptionValue → List (List Token)
  | [] => []
  | value :: rest => value.tokens :: OptionValue.tokensEach rest

/-- A colon stands behind every key, also before messages and lists. -/
def OptionEntry.tokens : OptionEntry → List Token
  | ⟨key, value, _⟩ =>
    key.tokens .leftBracket .rightBracket ++ .symbol .colon :: value.tokens

/-- Nothing stands between two entries. -/
def OptionEntry.tokensAll : List OptionEntry → List Token
  | [] => []
  | entry :: rest => entry.tokens ++ OptionEntry.tokensAll rest

end

/-- The keys with dots between them, and the value behind an equals sign. -/
def OptionSetting.tokens (setting : OptionSetting) : List Token :=
  separated .dot (setting.name.map (OptionKey.tokens .leftParen .rightParen)) ++
    .symbol .equals :: setting.value.tokens

/-- The tokens of settings in brackets, if there are any. -/
def OptionSetting.listTokens (settings : List OptionSetting) : List Token :=
  if settings.isEmpty then []
  else .symbol .leftBracket :: (separated .comma (settings.map tokens) ++ [.symbol .rightBracket])

/-- A setting that is a statement of its own. -/
def OptionStatement.tokens (option : OptionStatement) : List Token :=
  .word "option" :: (option.setting.tokens ++ [.symbol .semicolon])

/-! ### Fields -/

/-- A scalar is named by one word. -/
def ValueType.tokens : ValueType → List Token
  | scalar type _ => [.word type.name]
  | named reference => reference.name.tokens

/-- The key and the value of a map, whose key is always a scalar. -/
def FieldType.tokens : FieldType → List Token
  | single type => type.tokens
  | map ⟨key, _, value, _⟩ =>
    .word "map" :: .symbol .leftAngle :: .word key.name :: .symbol .comma ::
      (value.tokens ++ [.symbol .rightAngle])

/-- A singular field has no label, however it was written. -/
def FieldLabel.tokens (label : FieldLabel) : List Token :=
  label.word?.toList.map Token.word

/-- The number of a field has no sign. -/
def Field.tokens (field : Field) : List Token :=
  field.label.tokens ++ (field.type.tokens ++ (.word field.name.text :: .symbol .equals ::
    .int field.number.magnitude :: (OptionSetting.listTokens field.options ++
      [.symbol .semicolon])))

/-! ### Reserved numbers and names -/

/-- What follows the first bound of a range, with the word in front. -/
def RangeEnd.tokens : RangeEnd → List Token
  | absent => []
  | int literal => .word "to" :: literal.tokens
  | max _ => [.word "to", .word "max"]

/-- A range of one number is that number. -/
def Range.tokens (range : Range) : List Token := range.first.tokens ++ range.last.tokens

/-- The token of a string literal that is text. -/
def textToken (text : String) : Token := .string text.toUTF8.toList

/-- Ranges are written as numbers, names as strings in quotes. -/
def ReservedItems.tokens : ReservedItems → List Token
  | ranges items => separated .comma (items.map Range.tokens)
  | names items => separated .comma (items.map fun name => [textToken name.text])

/-- What is reserved, with commas in between, as one statement. -/
def Reserved.tokens (reserved : Reserved) : List Token :=
  .word "reserved" :: (reserved.items.tokens ++ [.symbol .semicolon])

/-- Ranges without names, with settings if there are any. -/
def ExtensionRanges.tokens (extensions : ExtensionRanges) : List Token :=
  .word "extensions" :: (separated .comma (extensions.ranges.map Range.tokens) ++
    (OptionSetting.listTokens extensions.options ++ [.symbol .semicolon]))

/-! ### Declarations with a body -/

/-- Options come before fields. -/
def Oneof.tokens (oneof : Oneof) : List Token :=
  .word "oneof" :: .word oneof.name.text ::
    braced (oneof.options.flatMap OptionStatement.tokens ++ oneof.fields.flatMap Field.tokens)

/-- Options come before fields, as in a oneof. -/
def Extension.tokens (extension : Extension) : List Token :=
  .word "extend" :: (extension.extendee.tokens ++
    braced (extension.options.flatMap OptionStatement.tokens ++
      extension.fields.flatMap Field.tokens))

/-- The number of an enum value may have a sign. -/
def EnumValue.tokens (value : EnumValue) : List Token :=
  .word value.name.text :: .symbol .equals ::
    (value.number.tokens ++ (OptionSetting.listTokens value.options ++ [.symbol .semicolon]))

/-- Options come first, then what is reserved, then the values. -/
def Enumeration.tokens (enumeration : Enumeration) : List Token :=
  .word "enum" :: .word enumeration.name.text ::
    braced (enumeration.options.flatMap OptionStatement.tokens ++
      (enumeration.reserved.flatMap Reserved.tokens ++
        enumeration.values.flatMap EnumValue.tokens))

/-- The tokens of a type that a method takes or returns. -/
def methodTypeTokens (streams : Bool) (name : TypeName) : List Token :=
  .symbol .leftParen :: ((if streams then [.word "stream"] else []) ++
    (name.tokens ++ [.symbol .rightParen]))

/-- A method without options ends in a semicolon, another in a body. -/
def Method.tokens (method : Method) : List Token :=
  .word "rpc" :: .word method.name.text ::
    (methodTypeTokens method.streamsInput method.input ++
      (.word "returns" :: (methodTypeTokens method.streamsOutput method.output ++
        if method.options.isEmpty then [.symbol .semicolon]
        else braced (method.options.flatMap OptionStatement.tokens))))

/-- Options come before methods. -/
def Service.tokens (service : Service) : List Token :=
  .word "service" :: .word service.name.text ::
    braced (service.options.flatMap OptionStatement.tokens ++
      service.methods.flatMap Method.tokens)

mutual

/-- The members by their kinds, in the order in which they are printed. -/
def Message.tokens : Message → List Token
  | ⟨name, fields, oneofs, messages, enums, extensions, extensionRanges, options, reserved, _, _⟩ =>
    .word "message" :: .word name.text ::
      braced (options.flatMap OptionStatement.tokens ++
        (reserved.flatMap Reserved.tokens ++
          (extensionRanges.flatMap ExtensionRanges.tokens ++
            (fields.flatMap Field.tokens ++
              (oneofs.flatMap Oneof.tokens ++
                (Message.tokensAll messages ++
                  (enums.flatMap Enumeration.tokens ++
                    extensions.flatMap Extension.tokens)))))))

/-- The messages one after the other. -/
def Message.tokensAll : List Message → List Token
  | [] => []
  | message :: rest => message.tokens ++ Message.tokensAll rest

end

/-! ### Files -/

/-- The statement that declares the edition, with its name in quotes. -/
def Edition.tokens (edition : Edition) : List Token :=
  [.word "syntax", .symbol .equals, textToken edition.name, .symbol .semicolon]

/-- The statement that declares the package. -/
def Package.tokens (package : Package) : List Token :=
  .word "package" :: (package.name.tokens ++ [.symbol .semicolon])

/-- The word for the kind of import stands before the path in quotes. -/
def Import.tokens (entry : Import) : List Token :=
  .word "import" :: ((entry.kind.toList.map fun kind => .word kind.name) ++
    [textToken entry.path.text, .symbol .semicolon])

/-- The tokens of the declarations of a file, without that of its edition. -/
def File.bodyTokens (file : File) : List Token :=
  file.package.toList.flatMap Package.tokens ++
    (file.imports.flatMap Import.tokens ++
      (file.options.flatMap OptionStatement.tokens ++
        (file.messages.flatMap Message.tokens ++
          (file.enums.flatMap Enumeration.tokens ++
            (file.services.flatMap Service.tokens ++
              file.extensions.flatMap Extension.tokens)))))

/-- The edition comes first, if the source declares one. -/
def File.tokens (file : File) : List Token :=
  file.declaredEdition.toList.flatMap Edition.tokens ++ file.bodyTokens

/-! ### Lists inside trees -/

/-- The function on lists is there for the recursion alone. -/
theorem OptionValue.tokensEach_eq (values : List OptionValue) :
    OptionValue.tokensEach values = values.map OptionValue.tokens := by
  induction values with
  | nil => rfl
  | cons value rest inductionHypothesis => rw [tokensEach, inductionHypothesis, List.map_cons]

theorem OptionEntry.tokensAll_eq (entries : List OptionEntry) :
    OptionEntry.tokensAll entries = entries.flatMap OptionEntry.tokens := by
  induction entries with
  | nil => rfl
  | cons entry rest inductionHypothesis => rw [tokensAll, inductionHypothesis, List.flatMap_cons]

/-- The messages inside another give their tokens one after the other. -/
theorem Message.tokensAll_eq (messages : List Message) :
    Message.tokensAll messages = messages.flatMap Message.tokens := by
  induction messages with
  | nil => rfl
  | cons message rest inductionHypothesis => rw [tokensAll, inductionHypothesis, List.flatMap_cons]

/-- The tokens of a message, part by part. -/
theorem Message.tokens_eq (message : Message) :
    message.tokens = .word "message" :: .word message.name.text ::
      braced (message.options.flatMap OptionStatement.tokens ++
        (message.reserved.flatMap Reserved.tokens ++
          (message.extensionRanges.flatMap ExtensionRanges.tokens ++
            (message.fields.flatMap Field.tokens ++
              (message.oneofs.flatMap Oneof.tokens ++
                (message.messages.flatMap Message.tokens ++
                  (message.enums.flatMap Enumeration.tokens ++
                    message.extensions.flatMap Extension.tokens))))))) := by
  cases message
  rw [Message.tokens, Message.tokensAll_eq]

end ProtoSchema
