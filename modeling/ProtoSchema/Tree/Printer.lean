/-
This file prints a schema in canonical form. Comments are left out and the
declarations of a body are put in a fixed order. The text is made of lines, each
with its depth; the parts of a file are set off by blank lines. No token of the
canonical form extends over two lines.
-/

import ProtoSchema.Token.Escape
import ProtoSchema.Tree.Declaration

namespace ProtoSchema

/-! ### Lines -/

/-- A line of text at a depth. -/
structure Line where
  depth : Nat
  text : String
deriving DecidableEq, Repr

namespace Line

/-- The line with two spaces for each level of depth. -/
def render (line : Line) : String :=
  String.ofList (List.replicate (2 * line.depth) ' ') ++ line.text ++ "\n"

/-- The line between two groups of declarations. -/
def blank : Line := ⟨0, ""⟩

end Line

/-- Some lines in braces after a header. -/
def block (depth : Nat) (header : String) (lines : List Line) : List Line :=
  ⟨depth, header ++ " \x7b"⟩ :: (lines ++ [⟨depth, "\x7d"⟩])

/-- Texts with commas between them. -/
def commaSeparated (texts : List String) : String :=
  ", ".intercalate texts

/-! ### Options -/

/-- Numbers are printed with an exponent below a ten-thousandth and from ten quadrillions on. -/
def printedFloatStyle : Decimal.Style := ⟨some (-3), some 16⟩

/-- Infinity and the value that is no number are printed as words. -/
def Double.text : Double → String
  | .nan => "nan"
  | .number negative magnitude =>
    (if negative then "-" else "") ++ Decimal.text printedFloatStyle magnitude

/-- A key as it is written between the given brackets if it names an extension. -/
def OptionKey.text (opening closing : String) : OptionKey → String
  | plain name => name.text
  | extension name _ => opening ++ name.text ++ closing

mutual

/-- A value on one line. -/
def OptionValue.text : OptionValue → String
  | .identifier name => name.text
  | .int literal => literal.text
  | .float value _ => value.text
  | .string bytes _ => Escape.literal bytes
  | .bool value _ => if value then "true" else "false"
  | .array values _ => "[" ++ commaSeparated (OptionValue.texts values) ++ "]"
  | .aggregate entries _ =>
    "\x7b" ++ OptionEntry.texts entries ++ (if entries.isEmpty then "" else " ") ++ "\x7d"

/-- The values of a list, to be put together with commas. -/
def OptionValue.texts : List OptionValue → List String
  | [] => []
  | value :: rest => value.text :: OptionValue.texts rest

/-- The entries of a message, each after a space. -/
def OptionEntry.texts : List OptionEntry → String
  | [] => ""
  | ⟨key, value, _⟩ :: rest =>
    " " ++ key.text "[" "]" ++ ": " ++ value.text ++ OptionEntry.texts rest

end

namespace OptionSetting

/-- A setting as it stands in brackets or in a statement. -/
def text (setting : OptionSetting) : String :=
  ".".intercalate (setting.name.map (·.text "(" ")")) ++ " = " ++ setting.value.text

/-- The settings of a declaration, after a space and in brackets, if there are any. -/
def listText (settings : List OptionSetting) : String :=
  if settings.isEmpty then "" else " [" ++ commaSeparated (settings.map text) ++ "]"

end OptionSetting

/-- A statement that sets an option. -/
def OptionStatement.line (depth : Nat) (option : OptionStatement) : Line :=
  ⟨depth, "option " ++ option.setting.text ++ ";"⟩

/-! ### Fields -/

/-- The word for a scalar, or the name of a type. -/
def ValueType.text : ValueType → String
  | .scalar type _ => type.name
  | .named reference => reference.name.text

/-- A map is printed with its key and its value between angle brackets. -/
def FieldType.text : FieldType → String
  | single type => type.text
  | map ⟨key, _, value, _⟩ => "map<" ++ key.name ++ ", " ++ value.text ++ ">"

/-- The word for the label and a blank, if there is a word. -/
def FieldLabel.text (label : FieldLabel) : String :=
  match label.word? with
  | some word => word ++ " "
  | none => ""

/-- A field, with its settings in brackets if it has any. -/
def Field.line (depth : Nat) (field : Field) : Line :=
  ⟨depth, field.label.text ++ field.type.text ++ " " ++ field.name.text ++ " = " ++
    toString field.number.magnitude.toNat ++ OptionSetting.listText field.options ++ ";"⟩

/-! ### Reserved numbers and names -/

/-- A range with its end, if it has one. -/
def Range.text (range : Range) : String :=
  range.first.text ++
    match range.last with
    | .absent => ""
    | .int literal => " to " ++ literal.text
    | .max _ => " to max"

/-- Names are printed in quotes. -/
def ReservedItems.text : ReservedItems → String
  | .ranges items => commaSeparated (items.map Range.text)
  | .names items => commaSeparated (items.map fun name => "\"" ++ name.text ++ "\"")

/-- A statement that reserves. -/
def Reserved.line (depth : Nat) (reserved : Reserved) : Line :=
  ⟨depth, "reserved " ++ reserved.items.text ++ ";"⟩

/-- A statement that leaves ranges to extensions. -/
def ExtensionRanges.line (depth : Nat) (extensions : ExtensionRanges) : Line :=
  ⟨depth, "extensions " ++ commaSeparated (extensions.ranges.map Range.text) ++
    OptionSetting.listText extensions.options ++ ";"⟩

/-! ### Declarations with a body -/

/-- A oneof with its options before its fields. -/
def Oneof.lines (depth : Nat) (oneof : Oneof) : List Line :=
  block depth ("oneof " ++ oneof.name.text)
    (oneof.options.map (OptionStatement.line (depth + 1)) ++
      oneof.fields.map (Field.line (depth + 1)))

/-- An extension block with its options before its fields. -/
def Extension.lines (depth : Nat) (extension : Extension) : List Line :=
  block depth ("extend " ++ extension.extendee.text)
    (extension.options.map (OptionStatement.line (depth + 1)) ++
      extension.fields.map (Field.line (depth + 1)))

/-- A value of an enum. -/
def EnumValue.line (depth : Nat) (value : EnumValue) : Line :=
  ⟨depth, value.name.text ++ " = " ++ value.number.text ++
    OptionSetting.listText value.options ++ ";"⟩

/-- An enum: options, what is reserved, and the values. -/
def Enumeration.lines (depth : Nat) (enumeration : Enumeration) : List Line :=
  block depth ("enum " ++ enumeration.name.text)
    (enumeration.options.map (OptionStatement.line (depth + 1)) ++
      enumeration.reserved.map (Reserved.line (depth + 1)) ++
      enumeration.values.map (EnumValue.line (depth + 1)))

/-- A type that a method takes or returns, in parentheses. -/
def methodTypeText (streams : Bool) (name : TypeName) : String :=
  "(" ++ (if streams then "stream " else "") ++ name.text ++ ")"

/-- A method up to its end. -/
def Method.header (method : Method) : String :=
  "rpc " ++ method.name.text ++ methodTypeText method.streamsInput method.input ++ " returns " ++
    methodTypeText method.streamsOutput method.output

/-- A method without options is one line. -/
def Method.lines (depth : Nat) (method : Method) : List Line :=
  if method.options.isEmpty then [⟨depth, method.header ++ ";"⟩]
  else block depth method.header (method.options.map (OptionStatement.line (depth + 1)))

/-- A service with its options before its methods. -/
def Service.lines (depth : Nat) (service : Service) : List Line :=
  block depth ("service " ++ service.name.text)
    (service.options.map (OptionStatement.line (depth + 1)) ++
      service.methods.flatMap (Method.lines (depth + 1)))

mutual

/-- A message: its members kind by kind, options first. -/
def Message.lines (depth : Nat) : Message → List Line
  | ⟨name, fields, oneofs, messages, enums, extensions, extensionRanges, options, reserved, _, _⟩ =>
    block depth ("message " ++ name.text)
      (options.map (OptionStatement.line (depth + 1)) ++
        reserved.map (Reserved.line (depth + 1)) ++
        extensionRanges.map (ExtensionRanges.line (depth + 1)) ++
        fields.map (Field.line (depth + 1)) ++
        oneofs.flatMap (Oneof.lines (depth + 1)) ++
        Message.linesOf (depth + 1) messages ++
        enums.flatMap (Enumeration.lines (depth + 1)) ++
        extensions.flatMap (Extension.lines (depth + 1)))

/-- The lines of messages, one message after the other. -/
def Message.linesOf (depth : Nat) : List Message → List Line
  | [] => []
  | message :: rest => message.lines depth ++ Message.linesOf depth rest

end

/-! ### Files -/

/-- A statement that imports another file. -/
def Import.line (entry : Import) : Line :=
  ⟨0, "import " ++ ((entry.kind.map fun kind => kind.name ++ " ").getD "") ++
    Escape.literal entry.path.text.toUTF8.toList ++ ";"⟩

/-- The lines of a part of a file, if there are any. -/
def partOf (lines : List Line) : List (List Line) :=
  if lines.isEmpty then [] else [lines]

namespace File

/-- The parts of a file that blank lines set off. -/
def parts (file : File) : List (List Line) :=
  (file.declaredEdition.toList.map fun edition =>
      [⟨0, "syntax = \"" ++ edition.name ++ "\";"⟩]) ++
    (file.package.toList.map fun package => [⟨0, "package " ++ package.name.text ++ ";"⟩]) ++
    partOf (file.imports.map Import.line) ++
    partOf (file.options.map (OptionStatement.line 0)) ++
    file.messages.map (Message.lines 0) ++
    file.enums.map (Enumeration.lines 0) ++
    file.services.map (Service.lines 0) ++
    file.extensions.map (Extension.lines 0)

/-- The parts of a file with blank lines between them. -/
def lines (file : File) : List Line :=
  (file.parts.intersperse [Line.blank]).flatten

/-- The canonical form of a file. -/
def render (file : File) : String :=
  String.join (file.lines.map Line.render)

end File

end ProtoSchema
